import Mathlib.Algebra.Group.Nat.Defs
import Mathlib.Data.Option.Basic
import Mathlib.Logic.Function.Basic
import Redroid.Lib.Sys

/-!
# Nodes and references

The nodes of the processes, the references to them with their tables, and what takes and drops
references: `binder_transaction` with the translation of its objects, the release of a buffer,
the reference commands, the node work of `binder_thread_read`, and the release of a process.

* `Node`, `Ref`: the structs, with `binder_inc_node_nilocked` (`Node.inc`) and
  `binder_dec_node_nilocked` (`Node.dec`) as functions of the node.
* `RefState`: all of them, the trees of each process (`nodes`, `refs_by_desc`, `refs_by_node`) as
  lists (the first two in the order of their keys), the transaction buffers with their objects, and
  the operations in progress (`Task`). Pointers are ids; the id of a freed struct is not used again. `none` as a
  result means that the code stops: a `BUG_ON`, or a pointer to no struct.
* One step of a task (`RefState.execAct`) is what the code does in one critical section. A task
  that keeps the outer lock of a process or the lock of the context manager between two steps has
  an act that says so (`Act.outer`, `Act.ctx`). What is not modelled (an allocation, a security
  hook, the other checks of `binder_transaction`) succeeds or fails with the step's `ok`.
* The counts of a reference are `int` and wrap. The counters of a node are unbounded: references, objects
  in buffers of its process, and threads hold what they count. Not modelled: death notifications, file
  descriptors, the other kinds of work, and the order of the node work on a list.
-/

namespace Redroid.Binder.Refs

abbrev ProcId := Nat
abbrev ThreadId := Nat
abbrev CtxId := Nat
abbrev NodeId := Nat
abbrev RefId := Nat
abbrev BufId := Nat

/-- The process of each thread, and the context of each process. -/
structure Layout where
  procOf : ThreadId → ProcId
  ctxOf : ProcId → CtxId

/-- The work lists that the work of a node can be on: `proc->todo` and `thread->todo`. -/
inductive WorkList where
  | proc (p : ProcId)
  | thread (x : ThreadId)
  deriving DecidableEq, Repr

/-- `struct binder_ref`. The counts are `int`: they wrap, and the code does not look out for it. -/
structure Ref where
  proc : ProcId
  desc : Nat
  node : NodeId
  strong : Int32
  weak : Int32
  deriving DecidableEq, Repr

/-- `struct binder_node`. `work`: the list that `node->work` is on. The counters do not wrap here: what
they count (references, objects in buffers, operations in flight) takes memory. -/
structure Node where
  ptr : Nat
  cookie : Nat
  proc : Option ProcId
  internalStrongRefs : Int
  localStrongRefs : Int
  localWeakRefs : Int
  tmpRefs : Int
  hasStrongRef : Bool
  hasWeakRef : Bool
  pendingStrongRef : Bool
  pendingWeakRef : Bool
  refs : List RefId
  work : Option WorkList
  deriving DecidableEq, Repr

namespace Node

/-- `binder_inc_node_nilocked`: whether it succeeds, and the node after it. `list` is the thread
whose `todo` is the `target_list`; `mgr`: the node is the context manager of its process. -/
def inc (N : Node) (strong internal : Bool) (list : Option ThreadId) (mgr : Bool) : Bool × Node :=
  if strong then
    if internal && list.isNone && N.internalStrongRefs == 0 &&
        !(N.proc.isSome && mgr && N.hasStrongRef) then (false, N)
    else
      let N := if internal then { N with internalStrongRefs := N.internalStrongRefs + 1 }
        else { N with localStrongRefs := N.localStrongRefs + 1 }
      match list with
      | some x => (true, if N.hasStrongRef then N else { N with work := some (.thread x) })
      | none => (true, N)
  else
    let N := if internal then N else { N with localWeakRefs := N.localWeakRefs + 1 }
    if !N.hasWeakRef && N.work.isNone then
      match list with
      | some x => (true, { N with work := some (.thread x) })
      | none => (false, N)
    else (true, N)

/-- Nothing but `internal_strong_refs` keeps the node. -/
def unused (N : Node) : Bool :=
  N.refs.isEmpty && N.localStrongRefs == 0 && N.localWeakRefs == 0 && N.tmpRefs == 0

/-- The first part of `binder_dec_node_nilocked`: the counter. -/
def drop (N : Node) (strong internal : Bool) : Node :=
  if strong then
    if internal then { N with internalStrongRefs := N.internalStrongRefs - 1 }
    else { N with localStrongRefs := N.localStrongRefs - 1 }
  else if internal then N
  else { N with localWeakRefs := N.localWeakRefs - 1 }

/-- `binder_dec_node_nilocked` returns early: there are other references of this kind. -/
def held (N : Node) (strong : Bool) : Bool :=
  if strong then N.localStrongRefs != 0 || N.internalStrongRefs != 0
  else N.localWeakRefs != 0 || N.tmpRefs != 0 || !N.refs.isEmpty

/-- `binder_dec_node_nilocked`: whether the node is to be freed, and the node after it. -/
def dec (N : Node) (strong internal : Bool) : Bool × Node :=
  let N := N.drop strong internal
  if N.held strong then (false, N)
  else match N.proc with
    | some p =>
      if N.hasStrongRef || N.hasWeakRef then
        (false, if N.work.isNone then { N with work := some (.proc p) } else N)
      else if N.unused then (true, { N with work := none })
      else (false, N)
    | none => (N.unused, N)

/-- The node has strong references, as the node work of `binder_thread_read` sees it. -/
def strong (N : Node) : Bool := N.internalStrongRefs != 0 || N.localStrongRefs != 0

/-- The node has weak references, as the node work of `binder_thread_read` sees it. -/
def weak (N : Node) : Bool :=
  !N.refs.isEmpty || N.localWeakRefs != 0 || N.tmpRefs != 0 || N.strong

/-- `pending_strong_ref` or `pending_weak_ref`. -/
def pending (N : Node) (strong : Bool) : Bool :=
  if strong then N.pendingStrongRef else N.pendingWeakRef

/-- `BC_ACQUIRE_DONE` or `BC_INCREFS_DONE`: nothing is pending any more. -/
def clearPending (N : Node) (strong : Bool) : Node :=
  if strong then { N with pendingStrongRef := false } else { N with pendingWeakRef := false }

/-- What `BINDER_WORK_NODE` does to the node. -/
def tell (N : Node) : Node :=
  { N with
    localWeakRefs := N.localWeakRefs + if N.weak && !N.hasWeakRef then 1 else 0
    localStrongRefs := N.localStrongRefs + if N.strong && !N.hasStrongRef then 1 else 0
    pendingWeakRef := N.pendingWeakRef || (N.weak && !N.hasWeakRef)
    pendingStrongRef := N.pendingStrongRef || (N.strong && !N.hasStrongRef)
    hasWeakRef := N.weak
    hasStrongRef := N.strong
    work := none }

end Node

/-- `BINDER_TYPE_*` of a `struct flat_binder_object`. -/
inductive ObjType where
  | binder | weakBinder | handle | weakHandle
  deriving DecidableEq, Repr

/-- `struct flat_binder_object`. `binder` is the union of `binder` and `handle`. -/
structure FlatObject where
  type : ObjType
  binder : Nat
  cookie : Nat
  deriving DecidableEq, Repr

namespace FlatObject

/-- `fp->handle`: the low half of the union. -/
def handle (o : FlatObject) : Nat := o.binder % 2 ^ 32

/-- A strong object: `BINDER_TYPE_BINDER` or `BINDER_TYPE_HANDLE`. -/
def strong (o : FlatObject) : Bool := o.type == .binder || o.type == .handle

/-- An object of its owner: `BINDER_TYPE_BINDER` or `BINDER_TYPE_WEAK_BINDER`. -/
def isBinder (o : FlatObject) : Bool := o.type == .binder || o.type == .weakBinder

/-- The object for a handle. -/
def ofHandle (strong : Bool) (desc : Nat) : FlatObject :=
  ⟨if strong then .handle else .weakHandle, desc, 0⟩

/-- The object for a node of the process that gets it. -/
def ofBinder (strong : Bool) (ptr cookie : Nat) : FlatObject :=
  ⟨if strong then .binder else .weakBinder, ptr, cookie⟩

end FlatObject

/-- Who has a transaction buffer: `binder_transaction` builds it; it is sent; it is being released;
it is free. -/
inductive Status where
  | building | sent | releasing | freed
  deriving DecidableEq, Repr

/-- A `struct binder_buffer`; `proc`: the process in whose allocator it is. `objects`: the flat
objects in it that have been translated. -/
structure Buffer where
  proc : ProcId
  targetNode : Option NodeId
  objects : List FlatObject
  status : Status
  deriving DecidableEq, Repr

/-- A kernel task: a thread in an ioctl, or the worker that runs `binder_deferred_release`. -/
inductive Actor where
  | thread (x : ThreadId)
  | worker (p : ProcId)
  deriving DecidableEq, Repr

/-- What `binder_inc_ref_for_node` is called for: an object of the transaction in the buffer `b`, or
`BC_INCREFS` and `BC_ACQUIRE` of handle 0, with the lock of the context manager of `c`. -/
inductive Why where
  | object (b : BufId)
  | command (c : CtxId)
  deriving DecidableEq, Repr

/-- What a task has to do next. -/
inductive Act where
  /-- `binder_transaction` has its target node, with a local strong and a temporary reference. -/
  | checks (x : ThreadId) (n : NodeId) (tp : ProcId)
  /-- `binder_transaction`, at the head of the loop over the objects. -/
  | build (x : ThreadId) (b : BufId) (target : Option NodeId)
  /-- `binder_translate_binder`: `binder_new_node`; then the checks, with a temporary reference. -/
  | newNode (x : ThreadId) (b : BufId) (o : FlatObject)
  | translateBinder (x : ThreadId) (b : BufId) (n : NodeId) (o : FlatObject)
  /-- `binder_translate_handle`, with a temporary reference on the node. -/
  | translateHandle (x : ThreadId) (b : BufId) (n : NodeId) (strong : Bool)
  /-- `binder_inc_ref_for_node`: the first lookup; after `kzalloc`; and with the new reference in
  the tables and the outer lock of `p` held. -/
  | incRef (why : Why) (p : ProcId) (n : NodeId) (strong : Bool) (list : Option ThreadId)
  | newRef (why : Why) (p : ProcId) (n : NodeId) (strong : Bool) (list : Option ThreadId)
  | incNewRef (why : Why) (p : ProcId) (n : NodeId) (r : RefId) (strong : Bool)
      (list : Option ThreadId)
  /-- `binder_dec_node(node, strong, 0)`. -/
  | decNode (n : NodeId) (strong : Bool)
  /-- `binder_put_node`. -/
  | putNode (n : NodeId)
  /-- `binder_transaction_buffer_release` of a buffer of `p`: the objects that are left. -/
  | releaseObjects (p : ProcId) (os : List FlatObject)
  /-- `binder_cleanup_ref_olocked`, with the outer lock of `p` held. -/
  | cleanupRef (p : ProcId) (r : RefId)
  /-- `binder_alloc_free_buf`. -/
  | freeBuf (b : BufId)
  /-- `binder_update_ref_for_handle`. -/
  | updateRef (p : ProcId) (desc : Nat) (increment strong : Bool)
  /-- `BC_ACQUIRE_DONE` or `BC_INCREFS_DONE` has found the node. -/
  | done (n : NodeId) (strong : Bool) (cookie : Nat)
  /-- `binder_ioctl_set_ctx_mgr` has the node. -/
  | becomeMgr (c : CtxId) (n : NodeId)
  /-- `binder_release_work` of the todo list of a thread. -/
  | releaseWork (l : WorkList)
  /-- `binder_deferred_release`. -/
  | clearMgr (p : ProcId)
  | setDead (p : ProcId)
  | releaseThreads (p : ProcId)
  | releaseNodes (p : ProcId)
  | nodeRelease (p : ProcId) (n : NodeId)
  | releaseRefs (p : ProcId)
  deriving DecidableEq, Repr

/-- The process whose outer lock the task holds before the step. -/
def Act.outer : Act → Option ProcId
  | .incNewRef _ p .. | .cleanupRef p _ => some p
  | _ => none

/-- The context whose `context_mgr_node_lock` the task holds before the step. -/
def Act.ctx : Act → Option CtxId
  | .incRef (.command c) .. | .newRef (.command c) .. | .incNewRef (.command c) ..
  | .becomeMgr c _ => some c
  | _ => none

/-- An operation in progress; it is over when nothing is left to do. -/
structure Task where
  actor : Actor
  acts : List Act
  deriving DecidableEq, Repr

/-- What the owner of a node is told (`BR_*`), and what it tells (`BC_*_DONE`, where accepted). -/
inductive Msg where
  | increfs | acquire | release | decrefs | increfsDone | acquireDone
  deriving DecidableEq, Repr

/-- The state. `closed`: the device file is closed, and the process is to be released; `msgs`: the
messages about each node, the oldest first. -/
structure RefState where
  node : NodeId → Option Node
  nodes : ProcId → List NodeId
  ref : RefId → Option Ref
  refsByDesc : ProcId → List RefId
  refsByNode : ProcId → List RefId
  ctxMgr : CtxId → Option NodeId
  closed : ProcId → Bool
  isDead : ProcId → Bool
  threadDead : ThreadId → Bool
  bufs : List Buffer
  tasks : List Task
  msgs : NodeId → List Msg
  nextNode : NodeId
  nextRef : RefId

namespace RefState

variable (L : Layout) (s : RefState)

/-- The fields of the node `n` change. -/
def setNode (n : NodeId) (N : Node) : RefState :=
  { s with node := Function.update s.node n (some N) }

/-- `rb_erase` from `proc->nodes`, and `binder_free_node`. -/
def freeNode (n : NodeId) (p : Option ProcId) : RefState :=
  { s with
    node := Function.update s.node n none
    nodes := match p with
      | some p => Function.update s.nodes p ((s.nodes p).erase n)
      | none => s.nodes }

def setRef (r : RefId) (R : Ref) : RefState := { s with ref := Function.update s.ref r (some R) }

def setBuf (b : BufId) (B : Buffer) : RefState := { s with bufs := s.bufs.set b B }

/-- `binder_alloc_new_buf`. -/
def addBuf (B : Buffer) : RefState := { s with bufs := s.bufs ++ [B] }

/-- `context->binder_context_mgr_node = node`. -/
def setMgr (c : CtxId) (n : Option NodeId) : RefState :=
  { s with ctxMgr := Function.update s.ctxMgr c n }

/-- `rb_erase` of a node that stays allocated. -/
def setNodes (p : ProcId) (ns : List NodeId) : RefState :=
  { s with nodes := Function.update s.nodes p ns }

/-- `proc->is_dead = true`. -/
def setDead (p : ProcId) : RefState := { s with isDead := Function.update s.isDead p true }

/-- `thread->is_dead = true`. -/
def exitThread (x : ThreadId) : RefState :=
  { s with threadDead := Function.update s.threadDead x true }

def setClosed (p : ProcId) : RefState := { s with closed := Function.update s.closed p true }

/-- The messages about the node `n`. -/
def addMsgs (n : NodeId) (ms : List Msg) : RefState :=
  { s with msgs := Function.update s.msgs n (s.msgs n ++ ms) }

/-- The task `i` goes on with `acts`. -/
def setTask (i : Nat) (a : Actor) (acts : List Act) : RefState :=
  { s with tasks := s.tasks.set i ⟨a, acts⟩ }

/-- A new operation. -/
def addTask (a : Actor) (acts : List Act) : RefState := { s with tasks := s.tasks ++ [⟨a, acts⟩] }

/-! ## Nodes -/

/-- The node `n` is the context manager of its process. -/
def isMgr (n : NodeId) (N : Node) : Bool :=
  N.proc.any fun p => s.ctxMgr (L.ctxOf p) == some n

/-- `binder_get_node_ilocked`, without the temporary reference. -/
def getNode (p : ProcId) (ptr : Nat) : Option NodeId :=
  (s.nodes p).find? fun n => (s.node n).any fun N => N.ptr == ptr

/-- `binder_inc_node_tmpref_ilocked`. -/
def takeNode (n : NodeId) : Option RefState := do
  let N ← s.node n
  some (s.setNode n { N with tmpRefs := N.tmpRefs + 1 })

/-- The `ptr` of a node. -/
def ptrOf (n : NodeId) : Nat := ((s.node n).map Node.ptr).getD 0

/-- The walk down `proc->nodes` with a new node. -/
def insertPtr (n : NodeId) (ptr : Nat) : List NodeId → List NodeId
  | [] => [n]
  | m :: ms => if ptr < s.ptrOf m then n :: m :: ms else m :: insertPtr n ptr ms

/-- `binder_init_node_ilocked`: the node with this `ptr`, with a temporary reference. -/
def initNode (p : ProcId) (ptr cookie : Nat) : Option (NodeId × RefState) :=
  match s.getNode p ptr with
  | some n => do some (n, ← s.takeNode n)
  | none =>
    let N : Node :=
      { ptr, cookie, proc := some p, internalStrongRefs := 0, localStrongRefs := 0
        localWeakRefs := 0, tmpRefs := 1, hasStrongRef := false, hasWeakRef := false
        pendingStrongRef := false, pendingWeakRef := false, refs := [], work := none }
    some (s.nextNode, { s.setNode s.nextNode N with
      nodes := Function.update s.nodes p (s.insertPtr s.nextNode ptr (s.nodes p))
      nextNode := s.nextNode + 1 })

/-- `binder_dec_node_nilocked` on the node `n`, as far as the node stays allocated. -/
def decNilocked (n : NodeId) (strong internal : Bool) : Option (Bool × RefState) := do
  let N ← s.node n
  let (free, N') := N.dec strong internal
  guard (!(free && N.proc.isNone && N'.work.isSome))
  if free then
    some (true, { s.setNode n N' with nodes := match N.proc with
      | some p => Function.update s.nodes p ((s.nodes p).erase n)
      | none => s.nodes })
  else some (false, s.setNode n N')

/-- `binder_dec_node`: with `binder_free_node` if the node is to be freed. -/
def decNode (n : NodeId) (strong internal : Bool) : Option RefState := do
  let (free, s) ← s.decNilocked n strong internal
  some (if free then { s with node := Function.update s.node n none } else s)

/-- `binder_dec_node_tmpref`. -/
def putNode (n : NodeId) : Option RefState := do
  let N ← s.node n
  guard (0 < N.tmpRefs)
  (s.setNode n { N with tmpRefs := N.tmpRefs - 1 }).decNode n false true

/-- `binder_get_node_refs_for_txn`: the process of the node, with the references taken. -/
def getNodeRefsForTxn (n : NodeId) : Option (Option ProcId × RefState) := do
  let N ← s.node n
  match N.proc with
  | some tp =>
    let N := (N.inc true false none (s.isMgr L n N)).2
    some (some tp, s.setNode n { N with tmpRefs := N.tmpRefs + 1 })
  | none => some (none, s)

/-! ## References -/

/-- The strong count of a reference. -/
def strongOf (r : RefId) : Int32 := ((s.ref r).map Ref.strong).getD 0

/-- `binder_get_ref_olocked`. -/
def getRef (p : ProcId) (desc : Nat) (needStrong : Bool) : Option RefId :=
  ((s.refsByDesc p).find? fun r => (s.ref r).any fun R => R.desc == desc).filter fun r =>
    !(needStrong && s.strongOf r == 0)

/-- The lookup of `binder_get_ref_for_node_olocked`. -/
def getRefForNode (p : ProcId) (n : NodeId) : Option RefId :=
  (s.refsByNode p).find? fun r => (s.ref r).any fun R => R.node == n

/-- The loop over `refs_by_desc` for a new `desc`, over the numbers in use. -/
def freeDesc : List Nat → Nat → Nat
  | [], d => d
  | e :: es, d => if d < e then d else freeDesc es ((e + 1) % 2 ^ 32)

/-- The number of a reference. -/
def descOf (r : RefId) : Nat := ((s.ref r).map Ref.desc).getD 0

/-- The walk down `refs_by_desc` with a new reference; it is a `BUG` to find its number. -/
def insertDesc (r : RefId) (d : Nat) : List RefId → Option (List RefId)
  | [] => some [r]
  | q :: qs =>
    if d < s.descOf q then some (r :: q :: qs)
    else if s.descOf q < d then (insertDesc r d qs).map (q :: ·)
    else none

/-- `binder_get_ref_for_node_olocked` with a new reference: into the tables of the process, and on
the list of the node. -/
def addRef (p : ProcId) (n : NodeId) : Option RefState := do
  let N ← s.node n
  let r := s.nextRef
  let d := freeDesc ((s.refsByDesc p).map s.descOf) (if s.ctxMgr (L.ctxOf p) = some n then 0 else 1)
  let qs ← s.insertDesc r d (s.refsByDesc p)
  some { (s.setNode n { N with refs := r :: N.refs }).setRef r ⟨p, d, n, 0, 0⟩ with
    refsByDesc := Function.update s.refsByDesc p qs
    refsByNode := Function.update s.refsByNode p (r :: s.refsByNode p)
    nextRef := r + 1 }

/-- `binder_inc_ref_olocked`: whether it succeeds. -/
def incRef (r : RefId) (strong : Bool) (list : Option ThreadId) : Option (Bool × RefState) := do
  let R ← s.ref r
  let R' := if strong then { R with strong := R.strong + 1 } else { R with weak := R.weak + 1 }
  if (if strong then R.strong else R.weak) = 0 then do
    let N ← s.node R.node
    let (ok, N') := N.inc strong true list (s.isMgr L R.node N)
    let s := s.setNode R.node N'
    some (ok, if ok then s.setRef r R' else s)
  else some (true, s.setRef r R')

/-- `binder_dec_ref_olocked`, up to `binder_cleanup_ref_olocked`: whether that is next. -/
def decRef (r : RefId) (strong : Bool) : Option (Bool × RefState) := do
  let R ← s.ref r
  if (if strong then R.strong else R.weak) = 0 then some (false, s)
  else do
    let R' := if strong then { R with strong := R.strong - 1 } else { R with weak := R.weak - 1 }
    let s := s.setRef r R'
    let s ← if strong && R'.strong == 0 then s.decNode R.node true true else some s
    some (R'.strong == 0 && R'.weak == 0, s)

/-- `binder_cleanup_ref_olocked`, and `binder_free_ref`. -/
def cleanupRef (r : RefId) : Option RefState := do
  let R ← s.ref r
  let s := { s with
    refsByDesc := Function.update s.refsByDesc R.proc ((s.refsByDesc R.proc).erase r)
    refsByNode := Function.update s.refsByNode R.proc ((s.refsByNode R.proc).erase r) }
  let s ← if R.strong ≠ 0 then do some (← s.decNilocked R.node true true).2 else some s
  let N ← s.node R.node
  let s := s.setNode R.node { N with refs := N.refs.erase r }
  let s ← s.decNode R.node false true
  some { s with ref := Function.update s.ref r none }

/-! ## Locks and tasks -/

/-- No task holds the outer lock of `p`. -/
def outerFree (p : ProcId) : Bool := s.tasks.all fun t => t.acts.all fun act => act.outer != some p

/-- No task holds the lock of the context manager of `c`. -/
def ctxFree (c : CtxId) : Bool := s.tasks.all fun t => t.acts.all fun act => act.ctx != some c

/-- The thread `x` can start an ioctl. -/
def idle (x : ThreadId) : Bool :=
  !s.closed (L.procOf x) && !s.threadDead x &&
    s.tasks.all fun t => t.actor != .thread x || t.acts.isEmpty

/-- No thread of `p` is in an ioctl. -/
def procIdle (p : ProcId) : Bool :=
  s.tasks.all fun t => t.acts.isEmpty ||
    match t.actor with
    | .thread x => L.procOf x != p
    | .worker q => q != p

/-- `binder_transaction_buffer_release` of a buffer, and then `binder_alloc_free_buf`. After a failure
in `binder_transaction` the temporary reference of the sender is dropped in between. -/
def releaseActs (b : BufId) (B : Buffer) (failed : Bool) : List Act :=
  B.targetNode.toList.map (.decNode · true) ++ .releaseObjects B.proc B.objects ::
    ((if failed then B.targetNode.toList.map .putNode else []) ++ [.freeBuf b])

/-- The buffer `b` is being released. -/
def setReleasing (b : BufId) (B : Buffer) : RefState := s.setBuf b { B with status := .releasing }

/-- One more object of the buffer `b` has been translated. -/
def addObject (b : BufId) (o : FlatObject) : Option RefState := do
  let B ← s.bufs[b]?
  some (s.setBuf b { B with objects := B.objects ++ [o] })

/-- `binder_transaction` fails with the buffer `b` allocated, and `acts` to be done before. -/
def failTxn (i : Nat) (a : Actor) (acts : List Act) (b : BufId) : Option RefState := do
  let B ← s.bufs[b]?
  some ((s.setReleasing b B).setTask i a (acts ++ releaseActs b B true))

/-- `binder_inc_ref_for_node` returns, for `why`, with the reference `r` incremented or not. -/
def incRefDone (i : Nat) (a : Actor) (rest : List Act) (why : Why) (p : ProcId) (n : NodeId)
    (strong : Bool) (res : Option (Bool × RefId)) : Option RefState :=
  match why, res with
  | .object b, some (true, r) => do
    let s ← s.addObject b (.ofHandle strong (s.descOf r))
    some (s.setTask i a rest)
  | .object b, _ => s.failTxn i a [.putNode n] b
  | .command _, some (true, _) => some (s.setTask i a rest)
  | .command _, _ => some (s.setTask i a (.updateRef p 0 true strong :: rest))

/-- The first node whose work is on one of these lists. -/
def firstWork (l : WorkList → Bool) : Option NodeId :=
  (List.range s.nextNode).find? fun n => (s.node n).any fun N => N.work.any l

/-- `binder_release_work`, as far as node work is concerned: the next item, or the end. -/
def releaseWork (i : Nat) (a : Actor) (act : Act) (rest : List Act) (l : WorkList → Bool) :
    Option RefState :=
  match s.firstWork l with
  | some n => do
    let N ← s.node n
    some ((s.setNode n { N with work := none }).setTask i a (act :: rest))
  | none => some (s.setTask i a rest)

/-- The todo list of a thread of `p`. -/
def threadOf (p : ProcId) : WorkList → Bool
  | .thread x => L.procOf x == p
  | .proc _ => false

/-- One step of the task `i` of `a`, whose next act is `act` and then `rest`. -/
def execAct (i : Nat) (a : Actor) (rest : List Act) (ok : Bool) : Act → Option RefState
  | .checks x n tp =>
    if L.procOf x = tp || !ok then some (s.setTask i a (.decNode n true :: .putNode n :: rest))
    else some ((s.addBuf ⟨tp, some n, [], .building⟩).setTask i a
      (.build x s.bufs.length (some n) :: rest))
  | .build .. => none
  | .newNode x b o =>
    if !ok then s.failTxn i a [] b
    else do
      let (n, s) ← s.initNode (L.procOf x) o.binder o.cookie
      some (s.setTask i a (.translateBinder x b n o :: .putNode n :: rest))
  | .translateBinder x b n o => do
    let N ← s.node n
    let B ← s.bufs[b]?
    if N.cookie ≠ o.cookie || !ok then s.failTxn i a [.putNode n] b
    else some (s.setTask i a (.incRef (.object b) B.proc n o.strong (some x) :: rest))
  | .translateHandle _ b n strong => do
    let N ← s.node n
    let B ← s.bufs[b]?
    if !ok then s.failTxn i a [.putNode n] b
    else if N.proc = some B.proc then do
      let s := s.setNode n (N.inc strong false none (s.isMgr L n N)).2
      let s ← s.addObject b (.ofBinder strong N.ptr N.cookie)
      some (s.setTask i a rest)
    else some (s.setTask i a (.incRef (.object b) B.proc n strong none :: rest))
  | .incRef why p n strong list => do
    guard (s.outerFree p)
    match s.getRefForNode p n with
    | some r => do
      let (done, s) ← s.incRef L r strong list
      s.incRefDone i a rest why p n strong (some (done, r))
    | none =>
      if ok then some (s.setTask i a (.newRef why p n strong list :: rest))
      else s.incRefDone i a rest why p n strong none
  | .newRef why p n strong list => do
    guard (s.outerFree p)
    match s.getRefForNode p n with
    | some r => do
      let (done, s) ← s.incRef L r strong list
      s.incRefDone i a rest why p n strong (some (done, r))
    | none => do
      let r := s.nextRef
      let s ← s.addRef L p n
      some (s.setTask i a (.incNewRef why p n r strong list :: rest))
  | .incNewRef why p n r strong list => do
    let (done, s) ← s.incRef L r strong list
    s.incRefDone i a rest why p n strong (some (done, r))
  | .decNode n strong => do
    let s ← s.decNode n strong false
    some (s.setTask i a rest)
  | .putNode n => do
    let s ← s.putNode n
    some (s.setTask i a rest)
  | .releaseObjects _ [] => some (s.setTask i a rest)
  | .releaseObjects p (o :: os) =>
    if o.isBinder then
      match s.getNode p o.binder with
      | none => some (s.setTask i a (.releaseObjects p os :: rest))
      | some n => do
        let s ← s.takeNode n
        some (s.setTask i a (.decNode n o.strong :: .putNode n :: .releaseObjects p os :: rest))
    else do
      guard (s.outerFree p)
      match s.getRef p o.handle o.strong with
      | none => some (s.setTask i a (.releaseObjects p os :: rest))
      | some r => do
        let (last, s) ← s.decRef r o.strong
        some (s.setTask i a ((if last then [.cleanupRef p r] else []) ++ .releaseObjects p os :: rest))
  | .cleanupRef _ r => do
    let s ← s.cleanupRef r
    some (s.setTask i a rest)
  | .freeBuf b => do
    let B ← s.bufs[b]?
    some ((s.setBuf b { B with status := .freed }).setTask i a rest)
  | .updateRef p desc increment strong => do
    guard (s.outerFree p)
    match s.getRef p desc strong with
    | none => some (s.setTask i a rest)
    | some r =>
      if increment then do
        let (_, s) ← s.incRef L r strong none
        some (s.setTask i a rest)
      else do
        let (last, s) ← s.decRef r strong
        some (s.setTask i a ((if last then [.cleanupRef p r] else []) ++ rest))
  | .done n strong cookie => do
    let N ← s.node n
    if N.cookie ≠ cookie || !N.pending strong then some (s.setTask i a rest)
    else do
      let (_, s) ← (s.setNode n (N.clearPending strong)).decNilocked n strong false
      some ((s.addMsgs n [if strong then .acquireDone else .increfsDone]).setTask i a rest)
  | .becomeMgr c n => do
    let N ← s.node n
    let N := { N with
      localWeakRefs := N.localWeakRefs + 1, localStrongRefs := N.localStrongRefs + 1
      hasStrongRef := true, hasWeakRef := true }
    some (((s.setNode n N).setMgr c (some n)).setTask i a rest)
  | .releaseWork l => s.releaseWork i a (.releaseWork l) rest (· == l)
  | .clearMgr p => do
    guard (s.ctxFree (L.ctxOf p))
    let own := (s.ctxMgr (L.ctxOf p)).any fun n => (s.node n).any fun N => N.proc == some p
    some ((if own then s.setMgr (L.ctxOf p) none else s).setTask i a rest)
  | .setDead p => some ((s.setDead p).setTask i a rest)
  | .releaseThreads p => s.releaseWork i a (.releaseThreads p) rest (threadOf L p)
  | .releaseNodes p =>
    match s.nodes p with
    | [] => some (s.setTask i a rest)
    | n :: ns => do
      let s ← s.takeNode n
      some ((s.setNodes p ns).setTask i a (.nodeRelease p n :: .releaseNodes p :: rest))
  | .nodeRelease _ n => do
    let N ← s.node n
    guard (N.tmpRefs ≠ 0)
    if N.refs.isEmpty && N.tmpRefs == 1 then some ((s.freeNode n none).setTask i a rest)
    else some ((s.setNode n { N with
      work := none, proc := none, localStrongRefs := 0, localWeakRefs := 0 }).setTask i a
        (.putNode n :: rest))
  | .releaseRefs p => do
    guard (s.outerFree p)
    match s.refsByDesc p with
    | [] => some (s.setTask i a rest)
    | r :: _ => do
      let s ← s.cleanupRef r
      some (s.setTask i a (.releaseRefs p :: rest))

end RefState

/-! ## Runs -/

/-- The steps: the ioctl commands, the close of the device, and the next step of the task `i`.
`object`, `send` and `fail` go on with the transaction that the task builds: its next object, its
delivery, or any failure. -/
inductive RefOp where
  | transaction (x : ThreadId) (handle : Nat)
  | reply (x : ThreadId) (tp : ProcId)
  | object (i : Nat) (o : FlatObject)
  | send (i : Nat)
  | fail (i : Nat)
  | freeBuffer (x : ThreadId) (b : BufId)
  | refCommand (x : ThreadId) (desc : Nat) (increment strong : Bool)
  | doneCommand (x : ThreadId) (ptr cookie : Nat) (strong : Bool)
  | readNode (x : ThreadId) (n : NodeId)
  | nodeInfo (x : ThreadId) (desc : Nat)
  | showNode (x : ThreadId) (n : NodeId)
  | setCtxMgr (x : ThreadId) (ptr cookie : Nat)
  | threadExit (x : ThreadId)
  | close (p : ProcId)
  | run (i : Nat) (ok : Bool)
  deriving DecidableEq, Repr

namespace RefState

variable (L : Layout) (s : RefState)

/-- The commands that `BINDER_WORK_NODE` gives for a node. -/
def tellMsgs (N : Node) : List Msg :=
  (if N.weak && !N.hasWeakRef then [.increfs] else []) ++
    (if N.strong && !N.hasStrongRef then [.acquire] else []) ++
    (if !N.strong && N.hasStrongRef then [.release] else []) ++
    (if !N.weak && N.hasWeakRef then [.decrefs] else [])

/-- `BINDER_WORK_NODE` in `binder_thread_read` of a thread of `p`. -/
def tellNode (p : ProcId) (n : NodeId) : Option RefState := do
  let N ← s.node n
  guard (N.proc = some p)
  let s := s.addMsgs n (tellMsgs N)
  some (if N.weak then s.setNode n N.tell else s.freeNode n (some p))

/-- The target of a transaction to the node `n`: the references are taken, unless its process is
gone. -/
def startTxn (x : ThreadId) (n : NodeId) : Option RefState := do
  match ← s.getNodeRefsForTxn L n with
  | (some tp, s) => some (s.addTask (.thread x) [.checks x n tp])
  | (none, _) => none

/-- The state after a step; `none` if it is not possible, or if it changes nothing of the model
because the code returns an error. -/
def exec : RefOp → Option RefState
  | .transaction x handle => do
    guard (s.idle L x)
    if handle ≠ 0 then do
      guard (s.outerFree (L.procOf x))
      let r ← s.getRef (L.procOf x) handle true
      let R ← s.ref r
      s.startTxn L x R.node
    else do
      guard (s.ctxFree (L.ctxOf (L.procOf x)))
      let n ← s.ctxMgr (L.ctxOf (L.procOf x))
      s.startTxn L x n
  | .reply x tp => do
    guard (s.idle L x)
    guard (L.procOf x ≠ tp)
    some ((s.addBuf ⟨tp, none, [], .building⟩).addTask (.thread x) [.build x s.bufs.length none])
  | .object i o => do
    let t ← s.tasks[i]?
    match t.acts with
    | .build x b target :: rest =>
      if o.isBinder then
        match s.getNode (L.procOf x) o.binder with
        | some n => do
          let s ← s.takeNode n
          some (s.setTask i t.actor
            (.translateBinder x b n o :: .putNode n :: .build x b target :: rest))
        | none => some (s.setTask i t.actor (.newNode x b o :: .build x b target :: rest))
      else do
        guard (s.outerFree (L.procOf x))
        match s.getRef (L.procOf x) o.handle o.strong with
        | some r => do
          let R ← s.ref r
          let s ← s.takeNode R.node
          some (s.setTask i t.actor
            (.translateHandle x b R.node o.strong :: .putNode R.node :: .build x b target :: rest))
        | none => s.failTxn i t.actor [] b
    | _ => none
  | .send i => do
    let t ← s.tasks[i]?
    match t.acts with
    | .build _ b target :: rest => do
      let B ← s.bufs[b]?
      -- `binder_proc_transaction` fails; the thread that a reply goes to may still be there
      if target.isSome && s.isDead B.proc then s.failTxn i t.actor [] b
      else some ((s.setBuf b { B with status := .sent }).setTask i t.actor
        (target.toList.map .putNode ++ rest))
    | _ => none
  | .fail i => do
    let t ← s.tasks[i]?
    match t.acts with
    | .build _ b _ :: _ => s.failTxn i t.actor [] b
    | _ => none
  | .freeBuffer x b => do
    guard (s.idle L x)
    let B ← s.bufs[b]?
    guard (B.status = .sent)
    guard (B.proc = L.procOf x)
    some ((s.setReleasing b B).addTask (.thread x) (releaseActs b B false))
  | .refCommand x desc increment strong => do
    guard (s.idle L x)
    let update := s.addTask (.thread x) [.updateRef (L.procOf x) desc increment strong]
    if increment && desc == 0 then do
      guard (s.ctxFree (L.ctxOf (L.procOf x)))
      match s.ctxMgr (L.ctxOf (L.procOf x)) with
      | none => some update
      | some n => do
        let N ← s.node n
        guard (N.proc ≠ some (L.procOf x))
        some (s.addTask (.thread x)
          [.incRef (.command (L.ctxOf (L.procOf x))) (L.procOf x) n strong none])
    else some update
  | .doneCommand x ptr cookie strong => do
    guard (s.idle L x)
    let n ← s.getNode (L.procOf x) ptr
    let s ← s.takeNode n
    some (s.addTask (.thread x) [.done n strong cookie, .putNode n])
  | .readNode x n => do
    guard (s.idle L x)
    let N ← s.node n
    guard (N.work = some (.thread x) || N.work = some (.proc (L.procOf x)))
    s.tellNode (L.procOf x) n
  | .nodeInfo x desc => do
    guard (s.idle L x)
    guard (s.outerFree (L.procOf x))
    let r ← s.getRef (L.procOf x) desc true
    let R ← s.ref r
    let s ← s.takeNode R.node
    some (s.addTask (.thread x) [.putNode R.node])
  | .showNode x n => do
    guard (s.idle L x)
    let N ← s.node n
    -- a node of a process, or one on `binder_dead_nodes`
    guard (N.proc.all fun p => (s.nodes p).contains n)
    let s ← s.takeNode n
    some (s.addTask (.thread x) [.putNode n])
  | .setCtxMgr x ptr cookie => do
    guard (s.idle L x)
    guard (s.ctxFree (L.ctxOf (L.procOf x)))
    guard (s.ctxMgr (L.ctxOf (L.procOf x)) = none)
    let (n, s) ← s.initNode (L.procOf x) ptr cookie
    some (s.addTask (.thread x) [.becomeMgr (L.ctxOf (L.procOf x)) n, .putNode n])
  | .threadExit x => do
    guard (s.idle L x)
    some ((s.exitThread x).addTask (.thread x) [.releaseWork (.thread x)])
  | .close p => do
    guard (!s.closed p)
    guard (s.procIdle L p)
    some ((s.setClosed p).addTask (.worker p)
      [.clearMgr p, .setDead p, .releaseThreads p, .releaseNodes p, .releaseRefs p,
        .releaseWork (.proc p)])
  | .run i ok => do
    let t ← s.tasks[i]?
    match t.acts with
    | [] => none
    | act :: rest => s.execAct L i t.actor rest ok act

end RefState

/-- The state before any ioctl. -/
def start : RefState where
  node _ := none
  nodes _ := []
  ref _ := none
  refsByDesc _ := []
  refsByNode _ := []
  ctxMgr _ := none
  closed _ := false
  isDead _ := false
  threadDead _ := false
  bufs := []
  tasks := []
  msgs _ := []
  nextNode := 0
  nextRef := 0

/-- The runs of any number of processes and threads. -/
def refSys (L : Layout) : Sys RefState RefOp := .ofExec (· = start) (RefState.exec L)

end Redroid.Binder.Refs
