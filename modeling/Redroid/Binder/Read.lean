import Redroid.Binder.AllocInv
import Redroid.Lib.Bytes

/-!
# The return stream (`binder_thread_read`)

`binder_thread_read` takes work off the lists of the thread and of the process, and writes the
commands for it into the read buffer of the caller.

* `Br`: the commands, with their codes and the sizes of their payloads.
* `Out`: the memory of the caller. All pointers are counted from `buffer`, modulo 2^64, as
  `ptr - buffer` is: an offset is inside the read buffer if it is less than `size`. `written` keeps
  the offsets of the bytes that were written.
* `Round`: what one pass of the loop finds under the lock. The lists change at any time, so a call
  is given by the list of its passes; a call whose passes end is still waiting.
* `threadRead`: the function. `Confined`: what a reader relies on.
* `threadRead_confined`: for which `size` and `*consumed` it keeps to that, whatever the lists hold.
-/

namespace Redroid.Binder.Read

open Redroid.Bytes

/-- `BR_*`. -/
inductive Br where
  | error | ok | transactionSecCtx | transaction | reply | acquireResult | deadReply
  | transactionComplete | increfs | acquire | release | decrefs | attemptAcquire | noop
  | spawnLooper | finished | deadBinder | clearDeathNotificationDone | failedReply
  deriving DecidableEq, Repr

namespace Br

/-- The third argument of `_IOR('r', nr, type)`, or 0. -/
def payload : Br → Nat
  | error | acquireResult => 4
  | transactionSecCtx => 72
  | transaction | reply => 64
  | increfs | acquire | release | decrefs => 16
  | attemptAcquire => 24
  | deadBinder | clearDeathNotificationDone => 8
  | ok | deadReply | transactionComplete | noop | spawnLooper | finished | failedReply => 0

/-- `_IOC_NR`. -/
def nr : Br → Nat
  | error => 0
  | ok => 1
  | transactionSecCtx | transaction => 2
  | reply => 3
  | acquireResult => 4
  | deadReply => 5
  | transactionComplete => 6
  | increfs => 7
  | acquire => 8
  | release => 9
  | decrefs => 10
  | attemptAcquire => 11
  | noop => 12
  | spawnLooper => 13
  | finished => 14
  | deadBinder => 15
  | clearDeathNotificationDone => 16
  | failedReply => 17

/-- `_IOR('r', nr, type)` and `_IO('r', nr)`. -/
def code (c : Br) : Nat :=
  (if c.payload = 0 then 0 else 2 ^ 31) + c.payload * 2 ^ 16 + 0x72 * 2 ^ 8 + c.nr

theorem code_lt (c : Br) : c.code < 256 ^ 4 := by
  cases c <;> decide

theorem code_inj {c d : Br} (h : c.code = d.code) : c = d := by
  revert h
  cases c <;> cases d <;> decide

end Br

/-- What a transaction hands to `binder_thread_read`. `target`: `ptr` and `cookie` of
`t->buffer->target_node`; `fixups`: the error of `binder_apply_fd_fixups`. -/
structure Txn where
  target : Option (Nat × Nat)
  code : Nat
  flags : Nat
  senderPid : Nat
  senderEuid : Nat
  dataSize : Nat
  offsetsSize : Nat
  userData : Nat
  securityCtx : Nat
  fixups : Option Errno
  deriving DecidableEq, Repr

/-- `struct binder_transaction_data_secctx`: the widths and the values of its fields. -/
def Txn.tr (t : Txn) : List (Nat × Nat) :=
  [(8, (t.target.map (·.1)).getD 0), (8, (t.target.map (·.2)).getD 0), (4, t.code), (4, t.flags),
    (4, t.senderPid), (4, t.senderEuid), (8, t.dataSize), (8, t.offsetsSize), (8, t.userData),
    (8, addSize t.userData (alignPtr t.dataSize)), (8, t.securityCtx)]

/-- What a node hands to `binder_thread_read`. `weak` is what keeps it besides a strong reference:
`!hlist_empty(&node->refs) || node->local_weak_refs || node->tmp_refs`. -/
structure Node where
  ptr : Nat
  cookie : Nat
  strong : Bool
  weak : Bool
  hasStrongRef : Bool
  hasWeakRef : Bool
  deriving DecidableEq, Repr

/-- The values of `struct binder_error.cmd`. -/
inductive ErrorCmd where
  | ok | error | deadReply | failedReply | transactionComplete
  deriving DecidableEq, Repr

def ErrorCmd.br : ErrorCmd → Br
  | ok => .ok
  | error => .error
  | deadReply => .deadReply
  | failedReply => .failedReply
  | transactionComplete => .transactionComplete

/-- `struct binder_work`. -/
inductive Work where
  | transaction (t : Txn)
  | returnError (cmd : ErrorCmd)
  | transactionComplete
  | node (n : Node)
  | deadBinder (cookie : Nat)
  | clearDeathNotification (cookie : Nat)
  | unknown
  deriving DecidableEq, Repr

/-- One pass of the loop: the head of the list, or no work; then `looper_need_return`, and whether a
wait ends with work (else it ends with a signal, or there is none for a caller that cannot block). -/
inductive Round where
  | work (w : Work)
  | empty (needReturn woken : Bool)
  deriving DecidableEq, Repr

/-- What decides about a new looper, at the end. -/
structure Looper where
  requestedThreads : Nat
  waitingThreads : Nat
  requestedThreadsStarted : Nat
  maxThreads : Nat
  registeredOrEntered : Bool
  deriving DecidableEq, Repr

/-- The rest of the system during a call. -/
structure Env where
  nonBlock : Bool
  writable : Nat → Bool
  woken : Bool
  rounds : List Round
  looper : Looper

/-- The memory of the caller, and `ptr - buffer`. -/
structure Out where
  bytes : Bytes
  ptr : Nat
  written : List Nat

/-- The bytes `data` at `ptr`. -/
def Out.write (data : List UInt8) (o : Out) : Out where
  bytes a := data[subSize a o.ptr]?.getD (o.bytes a)
  ptr := addSize o.ptr data.length
  written := o.written ++ (List.range data.length).map (addSize o.ptr)

/-- How a call or a part of it ends: it is still waiting, it goes on with `ret`, it is at `done`, or
it has returned. -/
inductive Step where
  | waiting (o : Out)
  | next (ret : Option Errno) (o : Out)
  | done (o : Out)
  | returned (ret : Option Errno) (consumed : Nat) (o : Out)

section Read

variable (env : Env) (size consumed : Nat)

/-- `put_user`. -/
def putUser (n v : Nat) (o : Out) : Out × Bool :=
  if (List.range n).all fun i => env.writable (addSize o.ptr i) then (o.write (bytesOf n v), true)
  else (o, false)

/-- `copy_to_user`, which writes up to the first byte that it cannot write. -/
def copyToUser (data : List UInt8) (o : Out) : Out × Bool :=
  let k := ((List.range data.length).takeWhile fun i => env.writable (addSize o.ptr i)).length
  (o.write (data.take k), decide (k = data.length))

/-- `put_user`, and `ptr += n`, one after another. -/
def putUsers : List (Nat × Nat) → Out → Out × Bool
  | [], o => (o, true)
  | (n, v) :: args, o =>
    match putUser env n v o with
    | (o, true) => putUsers args o
    | (o, false) => (o, false)

/-- A command with its arguments. A fault returns `-EFAULT`. -/
def putCmd (cmd : Br) (args : List (Nat × Nat)) (o : Out) (next : Out → Step) : Step :=
  match putUsers env ((4, cmd.code) :: args) o with
  | (o, true) => next o
  | (o, false) => .returned (some .EFAULT) consumed o

/-- `binder_put_node_cmd`, called if `b`. -/
def putNodeCmd (b : Bool) (cmd : Br) (n : Node) (o : Out) (next : Out → Step) : Step :=
  if b then putCmd env consumed cmd [(8, n.ptr), (8, n.cookie)] o next else next o

/-- `case BINDER_WORK_NODE`. `ret` may still be the error of an earlier transaction: it is cleared
by the first command only. -/
def nodeWork (n : Node) (ret : Option Errno) (o : Out) : Step :=
  let strong := n.strong
  let weak := n.weak || strong
  let increfs := weak && !n.hasWeakRef
  let ret := if increfs then none else ret
  putNodeCmd env consumed increfs .increfs n o fun o =>
  putNodeCmd env consumed (ret.isNone && strong && !n.hasStrongRef) .acquire n o fun o =>
  putNodeCmd env consumed (ret.isNone && !strong && n.hasStrongRef) .release n o fun o =>
  putNodeCmd env consumed (ret.isNone && !weak && n.hasWeakRef) .decrefs n o fun o =>
  if ret.isSome then .returned ret consumed o else .next none o

/-- The part of the loop for a transaction. -/
def transactionWork (t : Txn) (o : Out) : Step :=
  let cmd : Br := if t.target.isSome then .transaction else .reply
  match t.fixups with
  | some e =>
    if cmd = .reply then putCmd env consumed .failedReply [] o .done else .next (some e) o
  | none =>
    let cmd := if t.securityCtx ≠ 0 then .transactionSecCtx else cmd
    let trsize := if t.securityCtx ≠ 0 then 72 else 64
    putCmd env consumed cmd [] o fun o =>
    match copyToUser env ((t.tr.flatMap fun f => bytesOf f.1 f.2).take trsize) o with
    | (o, true) => .done o
    | (o, false) => .returned (some .EFAULT) consumed o

/-- The `switch` over the type of the work. -/
def deliver (ret : Option Errno) (o : Out) : Work → Step
  | .transaction t => transactionWork env consumed t o
  | .returnError cmd => putCmd env consumed cmd.br [] o (.next ret)
  | .transactionComplete => putCmd env consumed .transactionComplete [] o (.next ret)
  | .node n => nodeWork env consumed n ret o
  | .deadBinder cookie => putCmd env consumed .deadBinder [(8, cookie)] o .done
  | .clearDeathNotification cookie =>
    putCmd env consumed .clearDeathNotificationDone [(8, cookie)] o (.next ret)
  | .unknown => .next ret o

/-- `ret` after the wait at `retry`. -/
def wait (woken : Bool) (ret : Option Errno) : Option Errno :=
  if env.nonBlock then if woken then ret else some .EAGAIN
  else if woken then none else some .ERESTARTSYS

/-- The loop. `sizeof(tr) + 4` is 76, and the comparison with it is unsigned. -/
def loop : List Round → Option Errno → Out → Step
  | [], _, o => .waiting o
  | .empty needReturn woken :: rounds, ret, o =>
    if o.ptr = 4 ∧ needReturn = false then
      match wait env woken ret with
      | none => loop rounds none o
      | some e => .returned (some e) consumed o
    else .done o
  | .work w :: rounds, ret, o =>
    if subSize size o.ptr < 76 then .done o
    else
      match deliver env consumed ret o w with
      | .next ret o => loop rounds ret o
      | st => st

/-- Whether `BR_SPAWN_LOOPER` is sent. -/
def Looper.spawns (l : Looper) : Bool :=
  l.requestedThreads == 0 && l.waitingThreads == 0 &&
    decide (l.requestedThreadsStarted < l.maxThreads) && l.registeredOrEntered

/-- What follows `done`. -/
def finish (o : Out) : Step :=
  if env.looper.spawns then
    match putUser env 4 Br.spawnLooper.code { o with ptr := 0 } with
    | (o', true) => .returned none o.ptr o'
    | (o', false) => .returned (some .EFAULT) o.ptr o'
  else .returned none o.ptr o

/-- From `retry` on. -/
def fromRetry (o : Out) : Step :=
  match wait env env.woken none with
  | some e => .returned (some e) consumed o
  | none =>
    match loop env size consumed env.rounds none o with
    | .done o => finish env o
    | st => st

/-- `binder_thread_read`. -/
def threadRead (b : Bytes) : Step :=
  let o : Out := { bytes := b, ptr := consumed, written := [] }
  if consumed = 0 then
    match putUser env 4 Br.noop.code o with
    | (o, true) => fromRetry env size consumed o
    | (o, false) => .returned (some .EFAULT) consumed o
  else fromRetry env size consumed o

end Read

/-- The bytes from `i` to `j` are commands with their payloads. -/
inductive Complete (b : Bytes) : Nat → Nat → Prop where
  | nil {i : Nat} : Complete b i i
  | cons {i j : Nat} (c : Br) : load 4 b i = c.code → Complete b (i + 4 + c.payload) j → Complete b i j

def Step.out : Step → Out
  | .waiting o | .next _ o | .done o | .returned _ _ o => o

/-- What a reader relies on: all writes are inside the read buffer, and a call that returns 0 has
appended complete commands. The first one is `BR_NOOP` or `BR_SPAWN_LOOPER`. -/
structure Confined (size consumed : Nat) (st : Step) : Prop where
  inside : ∀ a ∈ st.out.written, a < size
  consumed_le : ∀ n o, st = .returned none n o → consumed ≤ n ∧ n ≤ size
  complete : ∀ n o, st = .returned none n o → Complete o.bytes consumed n
  leading : ∀ n o, st = .returned none n o → consumed = 0 →
    load 4 o.bytes 0 = Br.noop.code ∨ load 4 o.bytes 0 = Br.spawnLooper.code

/-! ## Writes -/

theorem Complete.le {b : Bytes} {i j : Nat} (h : Complete b i j) : i ≤ j := by
  induction h with
  | nil => exact Nat.le_refl _
  | cons c _ _ ih => omega

theorem Complete.trans {b : Bytes} {i j k : Nat} (h : Complete b i j) (h' : Complete b j k) :
    Complete b i k := by
  induction h with
  | nil => exact h'
  | cons c hc _ ih => exact .cons c hc (ih h')

theorem Complete.congr {b b' : Bytes} {i j : Nat} (h : Complete b i j)
    (hb : ∀ a, i ≤ a → a < j → b' a = b a) : Complete b' i j := by
  induction h with
  | nil => exact .nil
  | @cons i j c hc hrest ih =>
    have hle : i + 4 + c.payload ≤ j := hrest.le
    refine .cons c ?_ (ih fun a h₁ h₂ => hb a (by omega) h₂)
    rw [← hc]
    exact load_congr fun a h₁ h₂ => hb a h₁ (by omega)

/-- One command is complete if its payload is there. -/
theorem Complete.single {b : Bytes} {i : Nat} (c : Br) (h : load 4 b i = c.code) :
    Complete b i (i + 4 + c.payload) :=
  .cons c h .nil

/-- `n` bytes were appended inside the read buffer. -/
structure Wrote (size n : Nat) (o o' : Out) : Prop where
  ptr : o'.ptr = o.ptr + n
  below : ∀ a < o.ptr, o'.bytes a = o.bytes a
  above : ∀ a, o.ptr + n ≤ a → a < 2 ^ 64 → o'.bytes a = o.bytes a
  inside : ∀ a ∈ o'.written, a < size

section Writes

variable {env : Env} {size consumed : Nat} {o o' o'' : Out} {n m v : Nat}

theorem Wrote.refl (hin : ∀ a ∈ o.written, a < size) : Wrote size 0 o o :=
  ⟨rfl, fun _ _ => rfl, fun _ _ _ => rfl, hin⟩

theorem Wrote.trans (h : Wrote size n o o') (h' : Wrote size m o' o'') :
    Wrote size (n + m) o o'' where
  ptr := by rw [h'.ptr, h.ptr, Nat.add_assoc]
  below a ha := by rw [h'.below a (by rw [h.ptr]; omega), h.below a ha]
  above a ha ha' := by rw [h'.above a (by rw [h.ptr]; omega) ha', h.above a (by omega) ha']
  inside := h'.inside

variable (hs : size < 2 ^ 64)

include hs

theorem write_wrote (data : List UInt8) (hfit : o.ptr + data.length ≤ size)
    (hin : ∀ a ∈ o.written, a < size) : Wrote size data.length o (o.write data) where
  ptr := by
    unfold Out.write addSize
    exact Nat.mod_eq_of_lt (by omega)
  below a ha := by
    have hout : data.length ≤ subSize a o.ptr := by unfold subSize; omega
    simp [Out.write, List.getElem?_eq_none hout]
  above a ha ha' := by
    have hout : data.length ≤ subSize a o.ptr := by unfold subSize; omega
    simp [Out.write, List.getElem?_eq_none hout]
  inside a ha := by
    simp only [Out.write, List.mem_append, List.mem_map, List.mem_range, addSize] at ha
    rcases ha with ha | ⟨i, hi, rfl⟩
    · exact hin a ha
    · rw [Nat.mod_eq_of_lt (by omega)]
      omega

theorem load_write (hfit : o.ptr + n ≤ size) :
    load n (o.write (bytesOf n v)).bytes o.ptr = v % 256 ^ n := by
  refine load_digits fun i hi => ?_
  have hsub : subSize (o.ptr + i) o.ptr = i := by unfold subSize; omega
  simp [Out.write, hsub, bytesOf, hi]

theorem putUser_wrote (hfit : o.ptr + n ≤ size) (hin : ∀ a ∈ o.written, a < size)
    (h : putUser env n v o = (o', true)) :
    Wrote size n o o' ∧ load n o'.bytes o.ptr = v % 256 ^ n := by
  unfold putUser at h
  split at h
  · obtain ⟨rfl, -⟩ := Prod.mk.inj h
    refine ⟨?_, load_write hs hfit⟩
    simpa using write_wrote hs (bytesOf n v) (by simpa using hfit) hin
  · cases h

omit hs in
theorem putUser_fault (h : putUser env n v o = (o', false)) : o' = o := by
  unfold putUser at h
  split at h
  · cases h
  · exact (Prod.mk.inj h).1.symm

theorem copyToUser_wrote (env : Env) (data : List UInt8) (hfit : o.ptr + data.length ≤ size)
    (hin : ∀ a ∈ o.written, a < size) :
    (∀ a ∈ (copyToUser env data o).1.written, a < size) ∧
      ((copyToUser env data o).2 = true →
        Wrote size data.length o (copyToUser env data o).1) := by
  simp only [copyToUser]
  generalize ((List.range data.length).takeWhile fun i => env.writable (addSize o.ptr i)).length = k
  have hle : (data.take k).length ≤ data.length := List.length_take_le' _ _
  have hw := write_wrote hs (data.take k) (o := o) (by omega) hin
  refine ⟨hw.inside, fun hk => ?_⟩
  rw [of_decide_eq_true hk, List.take_length] at hw ⊢
  exact hw

theorem putUsers_wrote (env : Env) (args : List (Nat × Nat))
    (hfit : o.ptr + (args.map (·.1)).sum ≤ size)
    (hin : ∀ a ∈ o.written, a < size) :
    (∀ a ∈ (putUsers env args o).1.written, a < size) ∧
      ((putUsers env args o).2 = true →
        Wrote size (args.map (·.1)).sum o (putUsers env args o).1) := by
  induction args generalizing o with
  | nil => exact ⟨hin, fun _ => .refl hin⟩
  | cons f args ih =>
    obtain ⟨n, v⟩ := f
    rw [List.map_cons, List.sum_cons] at hfit ⊢
    rw [putUsers]
    match hput : putUser env n v o with
    | (o', false) =>
      rw [putUser_fault hput]
      exact ⟨hin, fun h => by cases h⟩
    | (o', true) =>
      obtain ⟨hw, -⟩ := putUser_wrote hs (by omega) hin hput
      obtain ⟨hin', hw'⟩ := ih (o := o') (by rw [hw.ptr]; omega) hw.inside
      exact ⟨hin', fun h => hw.trans (hw' h)⟩

end Writes

/-! ## Work -/

/-- Complete commands, `n` bytes, were appended inside the read buffer. -/
structure Sent (size n : Nat) (o o' : Out) : Prop extends Wrote size n o o' where
  complete : Complete o'.bytes o.ptr o'.ptr

/-- A part of the loop that only appends complete commands, or returns an error. -/
def Fine (size : Nat) (o : Out) : Step → Prop
  | .waiting o' | .next _ o' | .done o' => ∃ n, o.ptr + n ≤ size ∧ Sent size n o o'
  | .returned (some _) _ o' => ∀ a ∈ o'.written, a < size
  | .returned none _ _ => False

section Work

variable {env : Env} {size consumed : Nat} {o o' o'' : Out} {n m : Nat} {next : Out → Step}

theorem Sent.refl (hin : ∀ a ∈ o.written, a < size) : Sent size 0 o o :=
  ⟨.refl hin, .nil⟩

theorem Sent.trans (h : Sent size n o o') (h' : Sent size m o' o'') : Sent size (n + m) o o'' :=
  ⟨h.toWrote.trans h'.toWrote, (h.complete.congr fun a _ ha => h'.below a ha).trans h'.complete⟩

/-- What is appended after complete commands. -/
theorem Sent.fine {st : Step} (h : Sent size n o o') (hst : Fine size o' st) : Fine size o st := by
  have happend : ∀ o'', (∃ m, o'.ptr + m ≤ size ∧ Sent size m o' o'') →
      ∃ k, o.ptr + k ≤ size ∧ Sent size k o o'' := by
    rintro o'' ⟨m, hm, hsent⟩
    exact ⟨n + m, by have := h.ptr; omega, h.trans hsent⟩
  match st, hst with
  | .waiting o'', hst => exact happend o'' hst
  | .next _ o'', hst => exact happend o'' hst
  | .done o'', hst => exact happend o'' hst
  | .returned (some _) _ _, hst => exact hst

/-- A pass that appends nothing. -/
theorem fine_same (hfit : o.ptr ≤ size) (hin : ∀ a ∈ o.written, a < size) :
    ∃ n, o.ptr + n ≤ size ∧ Sent size n o o :=
  ⟨0, hfit, .refl hin⟩

variable (hs : size < 2 ^ 64)

include hs

/-- The code of a command, then its payload. -/
theorem putCmd_fine {cmd : Br} {args : List (Nat × Nat)}
    (hfit : o.ptr + 4 + (args.map (·.1)).sum ≤ size) (hin : ∀ a ∈ o.written, a < size)
    (hnext : ∀ o', Wrote size (4 + (args.map (·.1)).sum) o o' → load 4 o'.bytes o.ptr = cmd.code →
      Fine size o (next o')) :
    Fine size o (putCmd env consumed cmd args o next) := by
  unfold putCmd
  rw [putUsers]
  match hput : putUser env 4 cmd.code o with
  | (o₁, false) =>
    rw [putUser_fault hput]
    exact hin
  | (o₁, true) =>
    obtain ⟨hw, hload⟩ := putUser_wrote hs (by omega) hin hput
    rw [Nat.mod_eq_of_lt cmd.code_lt] at hload
    have hargs := putUsers_wrote hs env args (o := o₁) (by rw [hw.ptr]; omega)
      hw.inside
    show Fine size o (match putUsers env args o₁ with
      | (o, true) => next o
      | (o, false) => .returned (some .EFAULT) consumed o)
    match hput' : putUsers env args o₁ with
    | (o₂, false) =>
      rw [hput'] at hargs
      exact hargs.1
    | (o₂, true) =>
      rw [hput'] at hargs
      have hw' := hargs.2 rfl
      refine hnext o₂ (hw.trans hw') ?_
      rw [← hload]
      exact load_congr fun a _ ha => hw'.below a (by rw [hw.ptr]; exact ha)

/-- A command whose arguments are its payload. -/
theorem putCmd_sent {cmd : Br} {args : List (Nat × Nat)}
    (hpay : (args.map (·.1)).sum = cmd.payload)
    (hfit : o.ptr + 4 + cmd.payload ≤ size) (hin : ∀ a ∈ o.written, a < size)
    (hnext : ∀ o', Sent size (4 + cmd.payload) o o' → Fine size o' (next o')) :
    Fine size o (putCmd env consumed cmd args o next) := by
  refine putCmd_fine hs (by omega) hin fun o' hw hload => ?_
  rw [hpay] at hw
  have hsent : Sent size (4 + cmd.payload) o o' := by
    refine ⟨hw, ?_⟩
    rw [hw.ptr, ← Nat.add_assoc]
    exact .single cmd hload
  exact hsent.fine (hnext o' hsent)

theorem putNodeCmd_sent {b : Bool} {cmd : Br} {node : Node} (hcmd : cmd.payload = 16)
    (hfit : o.ptr + (if b then 20 else 0) ≤ size) (hin : ∀ a ∈ o.written, a < size)
    (hnext : ∀ o', Sent size (if b then 20 else 0) o o' → Fine size o' (next o')) :
    Fine size o (putNodeCmd env consumed b cmd node o next) := by
  unfold putNodeCmd
  cases b with
  | false => exact hnext o (.refl hin)
  | true =>
    rw [if_pos rfl] at hfit hnext ⊢
    refine putCmd_sent hs (by simp [hcmd]) (by omega) hin fun o' hsent => hnext o' ?_
    rwa [hcmd] at hsent

theorem nodeWork_fine {node : Node} {ret : Option Errno} (hfit : o.ptr + 76 ≤ size)
    (hin : ∀ a ∈ o.written, a < size) : Fine size o (nodeWork env consumed node ret o) := by
  unfold nodeWork
  obtain ⟨p, c, strong, weak, hasStrong, hasWeak⟩ := node
  dsimp only
  generalize hret : (if (weak || strong) && !hasWeak then none else ret) = ret'
  generalize hb₁ : ((weak || strong) && !hasWeak) = b₁
  generalize hb₂ : (ret'.isNone && strong && !hasStrong) = b₂
  generalize hb₃ : (ret'.isNone && !strong && hasStrong) = b₃
  generalize hb₄ : (ret'.isNone && !(weak || strong) && hasWeak) = b₄
  -- only one of the strong commands is sent, and only one of the weak ones
  have hw : (if b₁ then 20 else 0) + (if b₂ then 20 else 0) + (if b₃ then 20 else 0) +
      (if b₄ then 20 else 0) ≤ 40 := by
    subst hb₁ hb₂ hb₃ hb₄
    cases strong <;> cases weak <;> cases hasStrong <;> cases hasWeak <;> cases ret'.isNone <;> decide
  refine putNodeCmd_sent hs rfl (by omega) hin fun o₁ h₁ => ?_
  refine putNodeCmd_sent hs rfl (by rw [h₁.ptr]; omega) h₁.inside fun o₂ h₂ => ?_
  refine putNodeCmd_sent hs rfl (by rw [h₂.ptr, h₁.ptr]; omega) h₂.inside fun o₃ h₃ => ?_
  refine putNodeCmd_sent hs rfl (by rw [h₃.ptr, h₂.ptr, h₁.ptr]; omega) h₃.inside fun o₄ h₄ => ?_
  have hle : o₄.ptr ≤ size := by rw [h₄.ptr, h₃.ptr, h₂.ptr, h₁.ptr]; omega
  cases ret' with
  | none => exact fine_same hle h₄.inside
  | some e => exact h₄.inside

omit hs in
theorem length_tr (t : Txn) : (t.tr.flatMap fun f => bytesOf f.1 f.2).length = 72 := by
  simp [Txn.tr]

theorem transactionWork_fine {t : Txn} (hfit : o.ptr + 76 ≤ size)
    (hin : ∀ a ∈ o.written, a < size) : Fine size o (transactionWork env consumed t o) := by
  unfold transactionWork
  dsimp only
  cases t.fixups with
  | some e =>
    dsimp only
    by_cases hreply : (if t.target.isSome then Br.transaction else .reply) = .reply
    · rw [if_pos hreply]
      refine putCmd_sent hs rfl (by show o.ptr + 4 + 0 ≤ size; omega) hin fun o' h => ?_
      exact fine_same (by rw [h.ptr]; show o.ptr + (4 + 0) ≤ size; omega) h.inside
    · rw [if_neg hreply]
      exact fine_same (by omega) hin
  | none =>
    generalize hcmd : (if t.securityCtx ≠ 0 then Br.transactionSecCtx
      else if t.target.isSome then .transaction else .reply) = cmd
    generalize htr : (if t.securityCtx ≠ 0 then 72 else 64) = trsize
    generalize hdata : (t.tr.flatMap fun f => bytesOf f.1 f.2).take trsize = data
    have hpay : data.length = cmd.payload ∧ cmd.payload ≤ 72 := by
      rw [← hdata, List.length_take, length_tr, ← htr, ← hcmd]
      split_ifs <;> decide
    refine putCmd_fine hs (by simp; omega) hin fun o₁ hw hload => ?_
    rw [List.map_nil, List.sum_nil] at hw
    obtain ⟨hin', hcopy⟩ := copyToUser_wrote hs env data (o := o₁)
      (by rw [hw.ptr]; omega) hw.inside
    match hc : copyToUser env data o₁ with
    | (o₂, false) =>
      rw [hc] at hin'
      exact hin'
    | (o₂, true) =>
      rw [hc] at hcopy
      have hw' := hw.trans (hcopy rfl)
      refine ⟨4 + 0 + data.length, by omega, hw', ?_⟩
      have hcode : load 4 o₂.bytes o.ptr = cmd.code := by
        rw [← hload]
        exact load_congr fun a _ ha => (hcopy rfl).below a (by rw [hw.ptr]; exact ha)
      rw [hw'.ptr, hpay.1, Nat.add_zero, ← Nat.add_assoc]
      exact .single cmd hcode

/-- All work but a `BR_ERROR`, whose payload is not written. -/
theorem deliver_fine {ret : Option Errno} {w : Work} (hfit : o.ptr + 76 ≤ size)
    (hin : ∀ a ∈ o.written, a < size) (hw : w ≠ .returnError .error) :
    Fine size o (deliver env consumed ret o w) := by
  have hnext : ∀ {k : Nat} {o' : Out}, Sent size k o o' → k ≤ 76 →
      ∃ n, o'.ptr + n ≤ size ∧ Sent size n o' o' := fun h hk =>
    fine_same (by rw [h.ptr]; omega) h.inside
  cases w with
  | transaction t => exact transactionWork_fine hs hfit hin
  | node n => exact nodeWork_fine hs hfit hin
  | unknown => exact fine_same (by omega) hin
  | returnError cmd =>
    have hpay : cmd.br.payload = 0 := by
      cases cmd with
      | error => exact absurd rfl hw
      | _ => rfl
    exact putCmd_sent hs hpay.symm (by omega) hin fun o' h => hnext h (by omega)
  | transactionComplete =>
    exact putCmd_sent hs rfl (by simp [Br.payload]; omega) hin fun o' h => hnext h (by decide)
  | deadBinder cookie =>
    exact putCmd_sent hs rfl (by simp [Br.payload]; omega) hin fun o' h => hnext h (by decide)
  | clearDeathNotification cookie =>
    exact putCmd_sent hs rfl (by simp [Br.payload]; omega) hin fun o' h => hnext h (by decide)

end Work

/-! ## The call -/

/-- `ptr - buffer` when the loop is entered. -/
def start (consumed : Nat) : Nat := if consumed = 0 then 4 else consumed

/-- A `BR_ERROR` is queued. -/
def Env.HasError (env : Env) : Prop := .work (.returnError .error) ∈ env.rounds

/-- What a caller has to keep to: room for `BR_NOOP` and `BR_SPAWN_LOOPER`, a `*consumed` that lies in
the buffer and behind the place of `BR_SPAWN_LOOPER` (unless there is no room for work), and no room
for work where a `BR_ERROR` may be queued. -/
def Fits (size consumed : Nat) (errors : Bool) : Prop :=
  4 ≤ size ∧
    (consumed = 0 ∨ (4 ≤ consumed ∧ consumed ≤ size) ∨
      (0 < consumed ∧ consumed < 4 ∧ size < consumed + 76)) ∧
    (errors = true → size < start consumed + 76)

instance {size consumed : Nat} {errors : Bool} : Decidable (Fits size consumed errors) :=
  inferInstanceAs (Decidable (_ ∧ _ ∧ _))

/-- The state at `retry`. -/
structure Started (size consumed : Nat) (o : Out) : Prop where
  ptr : o.ptr = start consumed
  inside : ∀ a ∈ o.written, a < size
  noop : consumed = 0 → load 4 o.bytes 0 = Br.noop.code

section Call

variable {env : Env} {size consumed : Nat} {o o' : Out} {rounds : List Round} {ret : Option Errno}

/-- Without room for work the loop writes nothing. -/
theorem loop_out (hs : size < 2 ^ 64) (hfit : o.ptr ≤ size) (hroom : size < o.ptr + 76) :
    (loop env size consumed rounds ret o).out = o := by
  have hsub : subSize size o.ptr < 76 := by rw [subSize_eq hfit hs]; omega
  induction rounds generalizing ret with
  | nil => rfl
  | cons r rounds ih =>
    cases r with
    | work w => rw [loop, if_pos hsub]; rfl
    | empty needReturn woken =>
      rw [loop]
      split
      · cases wait env woken ret with
        | none => exact ih
        | some e => rfl
      · rfl

theorem loop_fine (hs : size < 2 ^ 64) (hfit : o.ptr ≤ size) (hin : ∀ a ∈ o.written, a < size)
    (hw : .work (.returnError .error) ∉ rounds ∨ size < o.ptr + 76) :
    Fine size o (loop env size consumed rounds ret o) := by
  induction rounds generalizing ret o with
  | nil => exact fine_same hfit hin
  | cons r rounds ih =>
    have hrest : ∀ {o' : Out} {n : Nat}, Sent size n o o' →
        .work (.returnError .error) ∉ rounds ∨ size < o'.ptr + 76 := fun h =>
      hw.imp (fun hr hmem => hr (List.mem_cons_of_mem _ hmem)) fun hr => by rw [h.ptr]; omega
    cases r with
    | empty needReturn woken =>
      rw [loop]
      split
      · cases wait env woken ret with
        | none => exact ih hfit hin (hrest (.refl hin))
        | some e => exact hin
      · exact fine_same hfit hin
    | work w =>
      rw [loop]
      by_cases hroom : subSize size o.ptr < 76
      · rw [if_pos hroom]
        exact fine_same hfit hin
      · rw [if_neg hroom]
        rw [subSize_eq hfit hs] at hroom
        have hne : w ≠ .returnError .error := by
          rintro rfl
          rcases hw with hw | hw
          · exact hw List.mem_cons_self
          · omega
        have hfine : Fine size o (deliver env consumed ret o w) :=
          deliver_fine hs (by omega) hin hne
        match hst : deliver env consumed ret o w with
        | .next ret' o' =>
          rw [hst] at hfine
          obtain ⟨n, hn, hsent⟩ := hfine
          exact hsent.fine (ih (by rw [hsent.ptr]; exact hn) hsent.inside (hrest hsent))
        | .waiting _ => rw [hst] at hfine; exact hfine
        | .done _ => rw [hst] at hfine; exact hfine
        | .returned _ _ _ => rw [hst] at hfine; exact hfine

/-- The end of a call: `BR_SPAWN_LOOPER` replaces the first command, or lies before all of them. -/
theorem finish_confined {n : Nat} (hs : size < 2 ^ 64) (h4 : 4 ≤ size) (hst : Started size consumed o)
    (hn : o.ptr + n ≤ size) (hsent : Sent size n o o') (hplace : 4 ≤ o.ptr ∨ n = 0) :
    Confined size consumed (finish env o') := by
  have hle : consumed ≤ o'.ptr ∧ o'.ptr ≤ size := by
    have hptr := hst.ptr
    have hptr' := hsent.ptr
    unfold start at hptr
    split at hptr <;> omega
  -- what a caller that does not begin at 0 has before `*consumed` does not matter
  have hcomplete : ∀ {b : Bytes} (c : Br), c.payload = 0 → (consumed = 0 → load 4 b 0 = c.code) →
      (∀ a, 4 ≤ a → a < o'.ptr → b a = o'.bytes a) → Complete b consumed o'.ptr := by
    intro b c hc hlead hb
    have hbody : Complete b o.ptr o'.ptr := by
      rcases hplace with hplace | rfl
      · exact hsent.complete.congr fun a ha ha' => hb a (by omega) ha'
      · rw [hsent.ptr]
        exact .nil
    rw [hst.ptr] at hbody
    unfold start at hbody
    split at hbody
    · next hc₀ =>
      subst hc₀
      refine .cons c (hlead rfl) ?_
      rw [hc]
      exact hbody
    · exact hbody
  have hnoop : consumed = 0 → load 4 o'.bytes 0 = Br.noop.code := by
    intro h₀
    rw [← hst.noop h₀]
    have hptr : o.ptr = 4 := by rw [hst.ptr, h₀]; rfl
    exact load_congr fun a _ ha => hsent.below a (by omega)
  unfold finish
  by_cases hspawn : env.looper.spawns
  · rw [if_pos hspawn]
    match hput : putUser env 4 Br.spawnLooper.code { o' with ptr := 0 } with
    | (o₂, false) =>
      rw [putUser_fault hput]
      exact ⟨hsent.inside, nofun, nofun, nofun⟩
    | (o₂, true) =>
      obtain ⟨hw, hload⟩ := putUser_wrote hs (o := { o' with ptr := 0 }) (by simpa using h4)
        hsent.inside hput
      have hload : load 4 o₂.bytes 0 = Br.spawnLooper.code := hload
      refine ⟨hw.inside, ?_, ?_, ?_⟩
      · rintro _ _ ⟨⟩
        exact hle
      · rintro _ _ ⟨⟩
        exact hcomplete .spawnLooper rfl (fun _ => hload) fun a ha ha' =>
          hw.above a (by simpa using ha) (by omega)
      · rintro _ _ ⟨⟩ -
        exact .inr hload
  · rw [if_neg hspawn]
    refine ⟨hsent.inside, ?_, ?_, ?_⟩
    · rintro _ _ ⟨⟩
      exact hle
    · rintro _ _ ⟨⟩
      exact hcomplete .noop rfl hnoop fun _ _ _ => rfl
    · rintro _ _ ⟨⟩ h₀
      exact .inl (hnoop h₀)

/-- A call that keeps to the condition. -/
theorem confined_of_fits {errors : Bool} {b : Bytes} (hs : size < 2 ^ 64)
    (hfits : Fits size consumed errors) (herr : env.HasError → errors = true) :
    Confined size consumed (threadRead env size consumed b) := by
  obtain ⟨h4, hplace, herrors⟩ := hfits
  have hfault : ∀ {e : Errno} {o : Out}, (∀ a ∈ o.written, a < size) →
      Confined size consumed (.returned (some e) consumed o) := fun hin =>
    ⟨hin, nofun, nofun, nofun⟩
  have hretry : ∀ o, Started size consumed o → Confined size consumed (fromRetry env size consumed o) := by
    intro o hst
    have hle : o.ptr ≤ size := by
      rw [hst.ptr]
      unfold start
      split <;> omega
    have hw : .work (.returnError .error) ∉ env.rounds ∨ size < o.ptr + 76 := by
      by_cases hmem : env.HasError
      · exact .inr (by rw [hst.ptr]; exact herrors (herr hmem))
      · exact .inl hmem
    unfold fromRetry
    cases wait env env.woken none with
    | some e => exact hfault hst.inside
    | none =>
      have hfine : Fine size o (loop env size consumed env.rounds none o) :=
        loop_fine hs hle hst.inside hw
      have hout : size < o.ptr + 76 → (loop env size consumed env.rounds none o).out = o :=
        loop_out hs hle
      match hl : loop env size consumed env.rounds none o with
      | .waiting o' =>
        rw [hl] at hfine
        obtain ⟨n, -, hsent⟩ := hfine
        exact ⟨hsent.inside, nofun, nofun, nofun⟩
      | .next _ o' =>
        rw [hl] at hfine
        obtain ⟨n, -, hsent⟩ := hfine
        exact ⟨hsent.inside, nofun, nofun, nofun⟩
      | .returned (some e) n o' =>
        rw [hl] at hfine
        exact ⟨hfine, nofun, nofun, nofun⟩
      | .returned none n o' =>
        rw [hl] at hfine
        exact hfine.elim
      | .done o' =>
        rw [hl] at hfine hout
        obtain ⟨n, hn, hsent⟩ := hfine
        refine finish_confined hs h4 hst hn hsent ?_
        rcases hplace with rfl | ⟨hc, -⟩ | ⟨hc, -, hroom⟩
        · exact .inl (by rw [hst.ptr]; decide)
        · exact .inl (by rw [hst.ptr, start, if_neg (by omega)]; exact hc)
        · have hptr : o.ptr = consumed := by rw [hst.ptr, start, if_neg (by omega)]
          have hsame : o' = o := hout (by rw [hptr]; exact hroom)
          have := hsent.ptr
          rw [hsame] at this
          exact .inr (by omega)
  unfold threadRead
  by_cases h₀ : consumed = 0
  · subst h₀
    dsimp only
    rw [if_pos rfl]
    match hput : putUser env 4 Br.noop.code { bytes := b, ptr := 0, written := [] } with
    | (o, false) =>
      rw [putUser_fault hput]
      exact hfault nofun
    | (o, true) =>
      obtain ⟨hw, hload⟩ := putUser_wrote hs (by simpa using h4) (by simp) hput
      exact hretry o ⟨hw.ptr, hw.inside, fun _ => hload⟩
  · dsimp only
    rw [if_neg h₀]
    exact hretry _ ⟨by rw [start, if_neg h₀], by simp, fun h => absurd h h₀⟩

end Call

/-! ## Calls that do not -/

/-- A call in which every write succeeds, with the given passes. -/
def plainEnv (rounds : List Round) (spawn : Bool) : Env where
  nonBlock := false
  writable _ := true
  woken := true
  rounds := rounds
  looper := ⟨0, 0, 0, 1, spawn⟩

/-- The passes of a call that finds the work `ws` and then has to return. -/
def returnsAfter (ws : List Work) : List Round := ws.map .work ++ [.empty true true]

section Plain

variable {rounds : List Round} {spawn : Bool} {size consumed : Nat} {o : Out} {b : Bytes}

theorem putUser_plain {n v : Nat} :
    putUser (plainEnv rounds spawn) n v o = (o.write (bytesOf n v), true) := by
  simp [putUser, plainEnv]

/-- `BR_NOOP`, or what the caller has. -/
def startOut (consumed : Nat) (b : Bytes) : Out :=
  if consumed = 0 then ({ bytes := b, ptr := 0, written := [] } : Out).write (bytesOf 4 Br.noop.code)
  else { bytes := b, ptr := consumed, written := [] }

/-- The end of a plain call. -/
def finishOut (spawn : Bool) (o : Out) : Out :=
  if spawn then ({ o with ptr := 0 } : Out).write (bytesOf 4 Br.spawnLooper.code) else o

theorem startOut_started (hs : size < 2 ^ 64) (h4 : 4 ≤ size) :
    Started size consumed (startOut consumed b) := by
  unfold startOut
  split
  · next h₀ =>
    subst h₀
    have hw := write_wrote hs (bytesOf 4 Br.noop.code)
      (o := { bytes := b, ptr := 0, written := [] }) (by simpa using h4) (by simp)
    exact ⟨hw.ptr, hw.inside, fun _ => load_write hs (by simpa using h4)⟩
  · next h₀ => exact ⟨(if_neg h₀).symm, by simp, fun h => absurd h h₀⟩

theorem threadRead_plain (h : loop (plainEnv rounds spawn) size consumed rounds none
      (startOut consumed b) = .done o) :
    threadRead (plainEnv rounds spawn) size consumed b = .returned none o.ptr (finishOut spawn o) := by
  have hretry : fromRetry (plainEnv rounds spawn) size consumed (startOut consumed b) =
      .returned none o.ptr (finishOut spawn o) := by
    have hwait : wait (plainEnv rounds spawn) (plainEnv rounds spawn).woken none = none := rfl
    rw [fromRetry, hwait]
    show (match loop (plainEnv rounds spawn) size consumed rounds none (startOut consumed b) with
      | .done o => finish (plainEnv rounds spawn) o
      | st => st) = _
    have hspawns : (plainEnv rounds spawn).looper.spawns = spawn := by simp [plainEnv, Looper.spawns]
    rw [h]
    show finish (plainEnv rounds spawn) o = _
    unfold finish finishOut
    rw [hspawns, putUser_plain]
    cases spawn <;> rfl
  unfold threadRead
  by_cases h₀ : consumed = 0
  · subst h₀
    dsimp only
    rw [if_pos rfl, putUser_plain]
    exact hretry
  · rw [startOut, if_neg h₀] at hretry
    dsimp only
    rw [if_neg h₀]
    exact hretry

theorem loop_returns : loop (plainEnv rounds spawn) size consumed (returnsAfter []) none o = .done o :=
  if_neg (by simp)

/-- One work item with a command without arguments. -/
theorem loop_cmd {w : Work} {cmd : Br} (hs : size < 2 ^ 64) (hroom : o.ptr + 76 ≤ size)
    (hw : ∀ env, deliver env consumed none o w = putCmd env consumed cmd [] o (.next none)) :
    loop (plainEnv rounds spawn) size consumed (returnsAfter [w]) none o =
      .done (o.write (bytesOf 4 cmd.code)) := by
  have hsub : ¬ subSize size o.ptr < 76 := by rw [subSize_eq (by omega) hs]; omega
  have hdeliver : deliver (plainEnv rounds spawn) consumed none o w =
      .next none (o.write (bytesOf 4 cmd.code)) := by
    rw [hw, putCmd, putUsers, putUser_plain]
    rfl
  show (if subSize size o.ptr < 76 then .done o else
    match deliver (plainEnv rounds spawn) consumed none o w with
    | .next ret o => loop (plainEnv rounds spawn) size consumed (returnsAfter []) ret o
    | st => st) = _
  rw [if_neg hsub, hdeliver]
  exact loop_returns

/-- `BR_SPAWN_LOOPER` needs four bytes. -/
theorem four_le_of_confined
    (h : Confined size consumed (threadRead (plainEnv (returnsAfter []) true) size consumed b)) :
    4 ≤ size := by
  rw [threadRead_plain loop_returns] at h
  have hmem : 3 ∈ (finishOut true (startOut consumed b)).written :=
    List.mem_append_right _ (List.mem_map.mpr ⟨3, by simp, rfl⟩)
  have := h.inside 3 hmem
  omega

/-- `*consumed` is returned as it is if there is no work. -/
theorem consumed_le_of_confined (h₀ : consumed ≠ 0)
    (h : Confined size consumed (threadRead (plainEnv (returnsAfter []) false) size consumed b)) :
    consumed ≤ size := by
  rw [threadRead_plain loop_returns] at h
  have hle := (h.consumed_le _ _ rfl).2
  rwa [startOut, if_neg h₀] at hle

/-- `BR_SPAWN_LOOPER` overwrites a command that begins in the first four bytes. -/
theorem not_complete_overwritten (hc : 0 < consumed) (hc' : consumed < 4) :
    ¬ Complete (finishOut true
        (({ bytes := b, ptr := consumed, written := [] } : Out).write
          (bytesOf 4 Br.transactionComplete.code))).bytes consumed (consumed + 4) := by
  intro h
  rcases h with _ | ⟨c, hload, -⟩
  have hcode : ∀ v ∈ [0x72, 0, 0x7200], c.code ≠ v := by cases c <;> decide
  refine hcode _ ?_ hload.symm
  have hcases : consumed = 1 ∨ consumed = 2 ∨ consumed = 3 := by omega
  rcases hcases with rfl | rfl | rfl <;>
    simp [load, finishOut, Out.write, bytesOf, subSize, Br.code, Br.payload, Br.nr, List.range_succ]

/-- The loop of a plain call that finds one command without arguments. -/
theorem threadRead_cmd {w : Work} {cmd : Br} (hs : size < 2 ^ 64) (hroom : start consumed + 76 ≤ size)
    (hw : ∀ env o, deliver env consumed none o w = putCmd env consumed cmd [] o (.next none)) :
    threadRead (plainEnv (returnsAfter [w]) spawn) size consumed b =
      .returned none (start consumed + 4)
        (finishOut spawn ((startOut consumed b).write (bytesOf 4 cmd.code))) := by
  have hptr : (startOut consumed b).ptr = start consumed :=
    (startOut_started hs (by omega)).ptr
  have hend : ((startOut consumed b).write (bytesOf 4 cmd.code)).ptr = start consumed + 4 := by
    show addSize (startOut consumed b).ptr (bytesOf 4 cmd.code).length = _
    rw [hptr, length_bytesOf, addSize_eq (by omega)]
  rw [threadRead_plain (loop_cmd hs (by rw [hptr]; exact hroom) fun env => hw env _), hend]

theorem room_of_confined (hs : size < 2 ^ 64) (hc : 0 < consumed) (hc' : consumed < 4)
    (h : Confined size consumed
      (threadRead (plainEnv (returnsAfter [.transactionComplete]) true) size consumed b)) :
    size < consumed + 76 := by
  by_contra hroom
  have hstart : start consumed = consumed := if_neg (by omega)
  rw [threadRead_cmd hs (by omega) fun _ _ => rfl, hstart] at h
  have hcomplete := h.complete _ _ rfl
  rw [startOut, if_neg (by omega)] at hcomplete
  exact not_complete_overwritten hc hc' hcomplete

/-- The commands before a place where they can be told apart are complete too. -/
theorem Complete.of_code {b : Bytes} {i j : Nat} {c : Br} (h : Complete b i j)
    (hload : load 4 b i = c.code) (hij : i < j) : Complete b (i + 4 + c.payload) j := by
  rcases h with _ | ⟨d, hd, hrest⟩
  · omega
  · rwa [Br.code_inj (hd.symm.trans hload)] at hrest

theorem room_of_confined_error (hs : size < 2 ^ 64)
    (h : Confined size consumed
      (threadRead (plainEnv (returnsAfter [.returnError .error]) false) size consumed b)) :
    size < start consumed + 76 := by
  by_contra hroom
  rw [threadRead_cmd hs (by omega) fun _ _ => rfl] at h
  have hcomplete := h.complete _ _ rfl
  have hst : Started size consumed (startOut consumed b) := startOut_started hs (by omega)
  generalize startOut consumed b = o at hcomplete hst
  have hptr := hst.ptr
  have hcode : load 4 (o.write (bytesOf 4 Br.error.code)).bytes (start consumed) = Br.error.code := by
    rw [← hptr]
    exact load_write hs (by omega)
  have hbody : Complete (o.write (bytesOf 4 Br.error.code)).bytes (start consumed)
      (start consumed + 4) := by
    by_cases h₀ : consumed = 0
    · subst h₀
      refine hcomplete.of_code (c := .noop) ?_ (by decide)
      have hw := write_wrote hs (bytesOf 4 Br.error.code) (by simp; omega) hst.inside
      have h4 : o.ptr = 4 := hptr
      rw [← hst.noop rfl]
      exact load_congr fun a _ ha => hw.below a (by omega)
    · rw [start, if_neg h₀]
      rw [start, if_neg h₀] at hcomplete
      exact hcomplete
  have hle := (hbody.of_code hcode (by omega)).le
  have : Br.error.payload = 4 := rfl
  omega

end Plain

/-- Whatever the lists hold, `binder_thread_read` stays inside the read buffer and appends complete
commands, if and only if the caller keeps to `Fits`. -/
theorem threadRead_confined {size consumed : Nat} {errors : Bool} (hs : size < 2 ^ 64) :
    (∀ env b, (env.HasError → errors = true) →
      Confined size consumed (threadRead env size consumed b)) ↔ Fits size consumed errors := by
  refine ⟨fun h => ?_, fun hfits env b herr => confined_of_fits hs hfits herr⟩
  have hquiet : ∀ (ws : List Work) (spawn : Bool), Work.returnError .error ∉ ws →
      (plainEnv (returnsAfter ws) spawn).HasError → errors = true := by
    intro ws spawn hws herr
    simp [Env.HasError, plainEnv, returnsAfter] at herr
    exact absurd herr hws
  have h4 : 4 ≤ size := four_le_of_confined (h _ 0 (hquiet [] true (by simp)))
  refine ⟨h4, ?_, fun herr => room_of_confined_error hs (h _ 0 fun _ => herr)⟩
  by_cases h₀ : consumed = 0
  · exact .inl h₀
  · have hle : consumed ≤ size := consumed_le_of_confined h₀ (h _ 0 (hquiet [] false (by simp)))
    by_cases hlow : consumed < 4
    · exact .inr (.inr ⟨by omega, hlow,
        room_of_confined hs (by omega) hlow (h _ 0 (hquiet [.transactionComplete] true (by simp)))⟩)
    · exact .inr (.inl ⟨by omega, hle⟩)

/-- A buffer of 256 bytes, nothing consumed, and `BR_TRANSACTION_COMPLETE` to read. -/
theorem threadRead_confined_256 :
    Confined 256 0 (threadRead (plainEnv (returnsAfter [.transactionComplete]) true) 256 0 0) := by
  have hiff : (∀ env b, (env.HasError → false = true) → Confined 256 0 (threadRead env 256 0 b)) ↔
      Fits 256 0 false := threadRead_confined (by decide)
  refine hiff.mpr (by decide) _ _ fun herr => ?_
  simp [Env.HasError, plainEnv, returnsAfter] at herr

/-- A buffer of one byte: `BR_NOOP` and `BR_SPAWN_LOOPER` are written behind it. -/
theorem threadRead_behind :
    ¬ Confined 1 0 (threadRead (plainEnv [.empty true true] true) 1 0 0) := by
  intro h
  have := four_le_of_confined h
  omega

end Redroid.Binder.Read
