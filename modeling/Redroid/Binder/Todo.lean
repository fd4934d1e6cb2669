import Mathlib.Data.List.Basic
import Mathlib.Logic.Function.Basic
import Redroid.Lib.Sys

/-!
# The todo list of a thread

What a thread finds on its `todo`, with `process_todo` (whether it may sleep on it) and the two
error slots `return_error` and `reply_error`, whose work is on the list while they are set.

* `Thread`: the fields of `struct binder_thread` that this is about, and where its ioctl is
  (`Phase`). A released thread is off `proc->threads`; what is left of its list is in `released`.
* `TodoOp`: a step is what the code does in one critical section, by the thread itself
  (`binder_transaction`, `binder_thread_write`, `binder_thread_read`, `binder_thread_release`) or by
  any other one that has work for it. The node work of a node can be taken off a list, or moved, at
  any time. What is not modelled (the target, an allocation, a copy to user space, the space in the
  read buffer, a pending signal) succeeds or fails with an argument of the step.
-/

namespace Redroid.Binder.Todo

abbrev ProcId := Nat
abbrev ThreadId := Nat
abbrev NodeId := Nat

/-- The process of each thread. -/
structure Layout where
  procOf : ThreadId → ProcId

/-- The two `struct binder_error` of a thread. -/
inductive Slot where
  | returnError | replyError
  deriving DecidableEq, Repr

/-- `BR_*`, as far as `cmd` of a `struct binder_error` has it. -/
inductive Cmd where
  | ok | error | transactionComplete | failedReply | deadReply
  deriving DecidableEq, Repr

/-- `struct binder_work`, with the struct that it is in. `complete`: `BINDER_WORK_TRANSACTION_COMPLETE`
of a synchronous call or of another transaction; `id` tells two of them apart. -/
inductive Work where
  | transaction
  | complete (sync : Bool) (id : Nat)
  | error (e : Slot)
  | node (n : NodeId)
  | deadBinder
  | clearDeathNotification
  deriving DecidableEq, Repr

namespace Work

/-- Queued on a thread without `process_todo`: `binder_enqueue_deferred_thread_work_ilocked`. -/
def deferred : Work → Bool
  | .complete sync _ => sync
  | .node _ => true
  | _ => false

def isNode : Work → Bool
  | .node _ => true
  | _ => false

end Work

/-- Where the ioctl of a thread is. -/
inductive Phase where
  /-- In user space, or in `binder_thread_write` between two commands. -/
  | user
  /-- `binder_transaction`, before the `TRANSACTION_COMPLETE` is queued; with it queued; and at
  `err_translate_failed` or a later label. -/
  | transaction
  | sent (sync : Bool) (id : Nat)
  | failing
  /-- `binder_thread_read`, at `retry`. -/
  | retry
  /-- `binder_wait_for_work` or `binder_has_work`. -/
  | wait (procWork : Bool)
  /-- `binder_thread_read`, at the head of its loop. -/
  | read (procWork : Bool)
  /-- `BINDER_WORK_RETURN_ERROR` is off the list, `put_user` is next. -/
  | deliver (e : Slot) (procWork : Bool)
  deriving DecidableEq, Repr

/-- In the middle of `binder_transaction`. -/
def Phase.inTransaction : Phase → Bool
  | .transaction | .sent .. | .failing => true
  | _ => false

/-- The read step that delivers the error `e`. -/
def Phase.delivers (e : Slot) : Phase → Bool
  | .deliver e' _ => e' == e
  | _ => false

/-- `struct binder_thread`. `cmd`: of the two error slots. -/
structure Thread where
  todo : List Work
  processTodo : Bool
  cmd : Slot → Cmd
  phase : Phase

namespace Thread

variable (T : Thread)

/-- A new thread, as `binder_get_thread_ilocked` makes it. -/
def new : Thread := ⟨[], false, fun _ => .ok, .user⟩

/-- `binder_enqueue_deferred_thread_work_ilocked`, and `binder_enqueue_work_ilocked` on `todo`. -/
def enqueueDeferred (w : Work) : Thread := { T with todo := T.todo ++ [w] }

/-- `binder_enqueue_thread_work_ilocked`. -/
def enqueue (w : Work) : Thread := { T with todo := T.todo ++ [w], processTodo := true }

/-- `binder_dequeue_work_ilocked`. -/
def dequeue (w : Work) : Thread := { T with todo := T.todo.filter (· ≠ w) }

/-- The slot `e` is set, and its work queued. -/
def setError (e : Slot) (c : Cmd) : Thread :=
  ({ T with cmd := Function.update T.cmd e c }).enqueue (.error e)

/-- The ioctl goes on. -/
def goto (p : Phase) : Thread := { T with phase := p }

end Thread

/-- The state. `released`: the lists that `binder_release_work` has to empty. -/
structure TodoState where
  thread : ThreadId → Option Thread
  procTodo : ProcId → List Work
  released : List (List Work)
  nextId : Nat

/-- The steps; the thread `x` makes those with an `x`, any other one those with a `y`. -/
inductive TodoOp where
  /-- `binder_get_thread`. -/
  | newThread (x : ThreadId)
  /-- `BC_TRANSACTION` or `BC_REPLY`. -/
  | transaction (x : ThreadId)
  /-- `binder_inc_node_nilocked` with the `todo` of `x` as `target_list`, which queues the node. -/
  | incNode (x : ThreadId) (n : NodeId)
  /-- The `TRANSACTION_COMPLETE` is queued; the transaction gets through; or its target is dead. -/
  | complete (x : ThreadId) (sync : Bool)
  | finish (x : ThreadId)
  | targetDead (x : ThreadId)
  /-- The end of a `binder_transaction` that fails. -/
  | fail (x : ThreadId) (c : Cmd)
  /-- `BC_REQUEST_DEATH_NOTIFICATION` without memory. -/
  | requestDeath (x : ThreadId)
  /-- `BC_CLEAR_DEATH_NOTIFICATION` or `BC_DEAD_BINDER_DONE` of a looper. -/
  | clearDeath (x : ThreadId)
  /-- A transaction, or a reply, for the thread `y`. -/
  | deliverTo (y : ThreadId)
  /-- `binder_send_failed_reply` to the thread `y`. -/
  | sendFailedReply (y : ThreadId) (c : Cmd)
  /-- Work for a process. -/
  | procWork (p : ProcId) (w : Work)
  /-- `binder_dequeue_work_ilocked` of the work of a node. -/
  | dequeueNode (n : NodeId)
  /-- `binder_thread_read`: its start, the test for work (`ok`: there is some, or `looper_need_return`;
  `again`: sleep and test again), the loop (`more`: there is room in the buffer, and the loop goes on
  after the work), and `put_user` of an error. -/
  | read (x : ThreadId)
  | available (x : ThreadId) (looper : Bool)
  | wait (x : ThreadId) (needReturn again : Bool)
  | readWork (x : ThreadId) (room more : Bool)
  | putUser (x : ThreadId) (ok more : Bool)
  /-- `binder_thread_release`, and the next work that `binder_release_work` takes. -/
  | release (x : ThreadId)
  | releaseWork (i : Nat)
  deriving DecidableEq, Repr

namespace TodoState

variable (L : Layout) (s : TodoState)

def setThread (x : ThreadId) (T : Thread) : TodoState :=
  { s with thread := Function.update s.thread x (some T) }

/-- `binder_dequeue_work_ilocked`, from whatever list the work is on. -/
def dequeue (w : Work) : TodoState :=
  { s with
    thread := fun x => (s.thread x).map (·.dequeue w)
    procTodo := fun p => (s.procTodo p).filter (· ≠ w)
    released := s.released.map (·.filter (· ≠ w)) }

/-- One turn of the loop of `binder_thread_read`. -/
def readWork (x : ThreadId) (T : Thread) (procWork room more : Bool) : Option TodoState :=
  let after (w : Work) (T : Thread) : Thread :=
    match w with
    | .error e => T.goto (.deliver e procWork)
    | _ => T.goto (if more then .read procWork else .user)
  match T.todo with
  | w :: ws =>
    if !room then some (s.setThread x (T.goto .user))
    else some (s.setThread x
      (after w { T with todo := ws, processTodo := T.processTodo && !ws.isEmpty }))
  | [] =>
    match s.procTodo (L.procOf x) with
    | w :: ws =>
      if !procWork then some (s.setThread x (T.goto (if more then .retry else .user)))
      else if !room then some (s.setThread x (T.goto .user))
      else some ({ s with procTodo := Function.update s.procTodo (L.procOf x) ws }.setThread x
        (after w { T with processTodo := false }))
    | [] => some (s.setThread x (T.goto (if more then .retry else .user)))

/-- The state after a step; `none` if it is not possible. -/
def exec : TodoOp → Option TodoState
  | .newThread x => do
    guard (s.thread x).isNone
    some (s.setThread x .new)
  | .transaction x => do
    let T ← s.thread x
    guard (T.phase = .user)
    -- the loop of `binder_thread_write`
    guard (T.cmd .returnError = .ok)
    some (s.setThread x (T.goto .transaction))
  | .incNode x n => do
    let T ← s.thread x
    guard (T.phase = .transaction)
    some ((s.dequeue (.node n)).setThread x ((T.dequeue (.node n)).enqueueDeferred (.node n)))
  | .complete x sync => do
    let T ← s.thread x
    guard (T.phase = .transaction)
    let w := .complete sync s.nextId
    let T := if sync then T.enqueueDeferred w else T.enqueue w
    some { s.setThread x (T.goto (.sent sync s.nextId)) with nextId := s.nextId + 1 }
  | .finish x => do
    let T ← s.thread x
    match T.phase with
    | .sent .. => some (s.setThread x (T.goto .user))
    | _ => none
  | .targetDead x => do
    let T ← s.thread x
    match T.phase with
    | .sent sync id => some (s.setThread x ((T.dequeue (.complete sync id)).goto .failing))
    | _ => none
  | .fail x c => do
    let T ← s.thread x
    guard (T.phase = .transaction ∨ T.phase = .failing)
    guard (c ≠ .ok)
    -- the `BUG_ON` before the slot is set
    guard (T.cmd .returnError = .ok)
    some (s.setThread x ((T.setError .returnError c).goto .user))
  | .requestDeath x => do
    let T ← s.thread x
    guard (T.phase = .user)
    guard (T.cmd .returnError = .ok)
    some (s.setThread x (T.setError .returnError .error))
  | .clearDeath x => do
    let T ← s.thread x
    guard (T.phase = .user)
    guard (T.cmd .returnError = .ok)
    some (s.setThread x (T.enqueue .clearDeathNotification))
  | .deliverTo y => do
    let T ← s.thread y
    some (s.setThread y (T.enqueue .transaction))
  | .sendFailedReply y c => do
    let T ← s.thread y
    guard (c ≠ .ok)
    if T.cmd .replyError = .ok then some (s.setThread y (T.setError .replyError c)) else some s
  | .procWork p w => do
    guard (w = .transaction ∨ w.isNode ∨ w = .deadBinder ∨ w = .clearDeathNotification)
    some { s with procTodo := Function.update s.procTodo p (s.procTodo p ++ [w]) }
  | .dequeueNode n => some (s.dequeue (.node n))
  | .read x => do
    let T ← s.thread x
    guard (T.phase = .user)
    some (s.setThread x (T.goto .retry))
  | .available x looper => do
    let T ← s.thread x
    guard (T.phase = .retry)
    some (s.setThread x (T.goto (.wait (looper && T.todo.isEmpty))))
  | .wait x needReturn again => do
    let T ← s.thread x
    match T.phase with
    | .wait procWork =>
      if T.processTodo || needReturn || (procWork && !(s.procTodo (L.procOf x)).isEmpty) then
        some (s.setThread x (T.goto (.read procWork)))
      else some (if again then s else s.setThread x (T.goto .user))
    | _ => none
  | .readWork x room more => do
    let T ← s.thread x
    match T.phase with
    | .read procWork => s.readWork L x T procWork room more
    | _ => none
  | .putUser x ok more => do
    let T ← s.thread x
    match T.phase with
    | .deliver e procWork =>
      -- `-EFAULT`, with the slot as it is
      if !ok then some (s.setThread x (T.goto .user))
      else some (s.setThread x (({ T with cmd := Function.update T.cmd e .ok }).goto
        (if more then .read procWork else .user)))
    | _ => none
  | .release x => do
    let T ← s.thread x
    guard (T.phase = .user)
    some { s with thread := Function.update s.thread x none, released := s.released ++ [T.todo] }
  | .releaseWork i => do
    let ws ← s.released[i]?
    some { s with released := s.released.set i ws.tail }

end TodoState

/-- The state before any ioctl. -/
def start : TodoState := ⟨fun _ => none, fun _ => [], [], 0⟩

/-- The runs of any number of threads. -/
def todoSys (L : Layout) : Sys TodoState TodoOp := .ofExec (· = start) (TodoState.exec L)

end Redroid.Binder.Todo
