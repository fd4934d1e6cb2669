import Mathlib.Logic.Function.Basic
import Redroid.Lib.Sys

/-!
# Death notifications

A process asks to be told when the node of one of its references dies. The `struct binder_ref_death`
of such a request is attached to the reference until the request is cleared, and is on a list while
there is something to deliver.

* `DeathState`: the references, the nodes that are dead, the deaths and the lists they are on. A
  `struct list_head` is on one list at most, so the list is a field of the death; in which order a
  list is read, or searched for a cookie, is not modelled: any death on it may be the next one.
* A step is what the code does in one critical section. `binder_node_release` keeps the lock of the
  node while it goes over the references (`notify`), `binder_cleanup_ref_olocked` the outer lock of
  the process until the death is off its list (`cleaning`). `none` as a result means that the step
  is not possible, or that the code stops at a `BUG_ON`.
* `Log`: what has been done so far for a request.
-/

namespace Redroid.Binder.Death

abbrev ProcId := Nat
abbrev ThreadId := Nat
abbrev NodeId := Nat
abbrev RefId := Nat
abbrev DeathId := Nat

/-- The process of each thread. -/
structure Layout where
  procOf : ThreadId → ProcId

/-- The lists: `proc->todo`, `thread->todo` and `proc->delivered_death`. -/
inductive DeathList where
  | todo (p : ProcId)
  | thread (x : ThreadId)
  | delivered (p : ProcId)
  deriving DecidableEq, Repr

/-- `enum binder_work_type`, as far as a death has it; `none` before the first one is set. -/
inductive WorkType where
  | none | deadBinder | deadBinderAndClear | clearDeathNotification
  deriving DecidableEq, Repr

/-- `struct binder_ref_death`. -/
structure RefDeath where
  cookie : Nat
  type : WorkType
  list : Option DeathList
  deriving DecidableEq, Repr

/-- `struct binder_ref`. -/
structure Ref where
  proc : ProcId
  node : NodeId
  death : Option DeathId
  deriving DecidableEq, Repr

/-- What has happened to a request of the process `proc`. `died`: its node has died while it was set,
or was dead before; then how often `BR_DEAD_BINDER` was queued, the request cleared,
`BR_CLEAR_DEATH_NOTIFICATION_DONE` queued, and the death freed. -/
structure Log where
  proc : ProcId
  died : Bool
  deadBinder : Nat
  clear : Nat
  clearDone : Nat
  freed : Nat
  deriving DecidableEq, Repr

/-- The state. `notify n`: the references that `binder_node_release` of `n` still has to go to;
`cleaning p`: the death of a reference of `p` that is being deleted; `freeing`: the deaths that only
`binder_free_ref` still knows; `released p`: all references of `p` are released. -/
structure DeathState where
  ref : RefId → Option Ref
  refs : ProcId → List RefId
  nodeRefs : NodeId → List RefId
  dead : NodeId → Bool
  death : DeathId → Option RefDeath
  log : DeathId → Log
  notify : NodeId → Option (List RefId)
  cleaning : ProcId → Option DeathId
  freeing : List DeathId
  closed : ProcId → Bool
  exited : ThreadId → Bool
  released : ProcId → Bool
  nextDeath : DeathId

/-- The steps. -/
inductive DeathOp where
  /-- A new reference of `p`. -/
  | newRef (r : RefId) (p : ProcId) (n : NodeId)
  /-- `BC_REQUEST_DEATH_NOTIFICATION` and `BC_CLEAR_DEATH_NOTIFICATION`. -/
  | request (x : ThreadId) (r : RefId) (cookie : Nat)
  | clear (x : ThreadId) (r : RefId) (cookie : Nat) (looper : Bool)
  /-- `BC_DEAD_BINDER_DONE` finds `d`. -/
  | deadBinderDone (x : ThreadId) (d : DeathId) (cookie : Nat) (looper : Bool)
  /-- `binder_thread_read` takes `d` off a list. -/
  | read (x : ThreadId) (d : DeathId)
  /-- `binder_cleanup_ref_olocked`, up to the death; the death; and `binder_free_ref`. -/
  | cleanupRef (r : RefId)
  | dequeueDeath (p : ProcId)
  | freeRef (d : DeathId)
  /-- `binder_node_release`: the node is dead now; the next reference; the end. -/
  | nodeRelease (n : NodeId)
  | notify (n : NodeId)
  /-- `BINDER_THREAD_EXIT`, and the close of the device. -/
  | threadExit (x : ThreadId)
  | close (p : ProcId)
  /-- `binder_deferred_release`: no reference is left; then `binder_release_work` takes `d`. -/
  | refsReleased (p : ProcId)
  | releaseWork (d : DeathId)
  deriving DecidableEq, Repr

namespace DeathState

variable (L : Layout) (s : DeathState)

def setRef (r : RefId) (R : Ref) : DeathState := { s with ref := Function.update s.ref r (some R) }

def setDeath (d : DeathId) (D : RefDeath) : DeathState :=
  { s with death := Function.update s.death d (some D) }

def setLog (d : DeathId) (l : Log) : DeathState := { s with log := Function.update s.log d l }

/-- `binder_enqueue_work_ilocked`, with the `BUG_ON`. -/
def enqueue (d : DeathId) (D : RefDeath) (l : DeathList) : Option DeathState := do
  guard (D.list = none)
  some (s.setDeath d { D with list := some l })

/-- `BINDER_WORK_DEAD_BINDER` of the death `d` is queued for the process `p`. -/
def queueDead (d : DeathId) (p : ProcId) : Option DeathState := do
  let D ← s.death d
  let s ← s.enqueue d { D with type := .deadBinder } (.todo p)
  some (s.setLog d { s.log d with deadBinder := (s.log d).deadBinder + 1 })

/-- `BINDER_WORK_CLEAR_DEATH_NOTIFICATION` of the death `d` is queued for the thread `x`, if it is a
looper, or for its process. -/
def queueClear (d : DeathId) (D : RefDeath) (x : ThreadId) (looper : Bool) : Option DeathState := do
  let l := if looper then .thread x else .todo (L.procOf x)
  let s ← s.enqueue d { D with type := .clearDeathNotification } l
  some (s.setLog d { s.log d with clearDone := (s.log d).clearDone + 1 })

/-- `kfree(death)`. -/
def freeDeath (d : DeathId) : DeathState :=
  { s with
    death := Function.update s.death d none
    log := Function.update s.log d { s.log d with freed := (s.log d).freed + 1 } }

/-- A new death is attached to the reference `r`. -/
def attach (r : RefId) (R : Ref) (cookie : Nat) : DeathState :=
  { s with
    ref := Function.update s.ref r (some { R with death := some s.nextDeath })
    death := Function.update s.death s.nextDeath (some ⟨cookie, .none, none⟩)
    log := Function.update s.log s.nextDeath ⟨R.proc, s.dead R.node, 0, 0, 0, 0⟩
    nextDeath := s.nextDeath + 1 }

/-- The death `d` of the reference `r` is cleared: `ref->death = NULL`. -/
def detach (r : RefId) (R : Ref) (d : DeathId) : DeathState :=
  (s.setRef r { R with death := none }).setLog d { s.log d with clear := (s.log d).clear + 1 }

/-- The reference `r` leaves the tables and its node; its death is still to be dequeued. -/
def dropRef (r : RefId) (R : Ref) : DeathState :=
  { s with
    ref := Function.update s.ref r none
    refs := Function.update s.refs R.proc ((s.refs R.proc).erase r)
    nodeRefs := Function.update s.nodeRefs R.node ((s.nodeRefs R.node).erase r)
    cleaning := Function.update s.cleaning R.proc R.death }

/-- The thread `x` can make an ioctl. -/
def live (x : ThreadId) : Bool := !s.exited x && !s.closed (L.procOf x)

/-- Nobody reads the list any more: its thread has exited, or all references of its process are
released. -/
def abandoned : DeathList → Bool
  | .thread x => s.exited x || s.closed (L.procOf x)
  | .todo p | .delivered p => s.released p

/-- The state after a step. -/
def exec : DeathOp → Option DeathState
  | .newRef r p n => do
    guard (s.ref r = none ∧ s.notify n = none)
    some { s.setRef r ⟨p, n, none⟩ with
      refs := Function.update s.refs p (r :: s.refs p)
      nodeRefs := Function.update s.nodeRefs n (r :: s.nodeRefs n) }
  | .request x r cookie => do
    guard (s.live L x = true)
    let R ← s.ref r
    guard (R.proc = L.procOf x ∧ s.cleaning R.proc = none ∧ s.notify R.node = none)
    -- else the request is refused
    guard (R.death = none)
    if s.dead R.node then (s.attach r R cookie).queueDead s.nextDeath R.proc
    else some (s.attach r R cookie)
  | .clear x r cookie looper => do
    guard (s.live L x = true)
    let R ← s.ref r
    guard (R.proc = L.procOf x ∧ s.cleaning R.proc = none ∧ s.notify R.node = none)
    let d ← R.death
    let D ← s.death d
    -- else there is nothing to clear
    guard (D.cookie = cookie)
    if D.list = none then (s.detach r R d).queueClear L d D x looper
    else do
      guard (D.type = .deadBinder)
      some ((s.detach r R d).setDeath d { D with type := .deadBinderAndClear })
  | .deadBinderDone x d cookie looper => do
    guard (s.live L x = true)
    let D ← s.death d
    guard (D.list = some (.delivered (L.procOf x)) ∧ D.cookie = cookie)
    let D := { D with list := none }
    if D.type = .deadBinderAndClear then s.queueClear L d D x looper else some (s.setDeath d D)
  | .read x d => do
    guard (s.live L x = true)
    let D ← s.death d
    guard (D.list = some (.thread x) ∨ D.list = some (.todo (L.procOf x)))
    if D.type = .clearDeathNotification then some (s.freeDeath d)
    else s.enqueue d { D with list := none } (.delivered (L.procOf x))
  | .cleanupRef r => do
    let R ← s.ref r
    guard (s.cleaning R.proc = none ∧ s.notify R.node = none)
    some (s.dropRef r R)
  | .dequeueDeath p => do
    let d ← s.cleaning p
    let D ← s.death d
    some { s.setDeath d { D with list := none } with
      cleaning := Function.update s.cleaning p none, freeing := d :: s.freeing }
  | .freeRef d => do
    guard (d ∈ s.freeing)
    some { s.freeDeath d with freeing := s.freeing.erase d }
  | .nodeRelease n => do
    guard (s.notify n = none ∧ s.dead n = false)
    let died (d : DeathId) : Bool :=
      (s.nodeRefs n).any fun r => (s.ref r).any fun R => R.death == some d
    some { s with
      dead := Function.update s.dead n true
      notify := Function.update s.notify n (some (s.nodeRefs n))
      log := fun d => if died d then { s.log d with died := true } else s.log d }
  | .notify n => do
    match ← s.notify n with
    | [] => some { s with notify := Function.update s.notify n none }
    | r :: rs => do
      let R ← s.ref r
      let s := { s with notify := Function.update s.notify n (some rs) }
      match R.death with
      | none => some s
      | some d => s.queueDead d R.proc
  | .threadExit x => do
    guard (s.live L x = true)
    some { s with exited := Function.update s.exited x true }
  | .close p => some { s with closed := Function.update s.closed p true }
  | .refsReleased p => do
    guard (s.closed p = true ∧ s.cleaning p = none ∧ s.refs p = [])
    some { s with released := Function.update s.released p true }
  | .releaseWork d => do
    let D ← s.death d
    let l ← D.list
    guard (s.abandoned L l = true)
    match D.type with
    | .deadBinderAndClear | .clearDeathNotification => some (s.freeDeath d)
    -- an unexpected type, not freed
    | _ => some (s.setDeath d { D with list := none })

end DeathState

/-- The state before any ioctl. -/
def start : DeathState where
  ref _ := none
  refs _ := []
  nodeRefs _ := []
  dead _ := false
  death _ := none
  log _ := ⟨0, false, 0, 0, 0, 0⟩
  notify _ := none
  cleaning _ := none
  freeing := []
  closed _ := false
  exited _ := false
  released _ := false
  nextDeath := 0

/-- The runs of any number of processes. -/
def deathSys (L : Layout) : Sys DeathState DeathOp := .ofExec (· = start) (DeathState.exec L)

end Redroid.Binder.Death
