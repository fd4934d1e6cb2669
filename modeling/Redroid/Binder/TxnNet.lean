import Redroid.Lib.CallChain
import Redroid.Binder.TxnSched

/-!
# Transaction stacks as chains of calls

`thread->transaction_stack` is a list through `to_parent` and `from_parent`: a synchronous
transaction lies on the stack of the thread that has sent it, and, once it is delivered, on the one of
the thread that serves it.

* `Ghost`: the stacks as lists (`CallChain.Net`), which transactions are synchronous calls, and those
  whose `from` and `from_parent` say nothing: before the call is on its sender's stack, and after it
  has left it.
* `TxnState.owned`: where each transaction is that is on no stack of a thread that serves it, once
  (`Tasks`).
* `Data`: what the structs say of the chains. `Tasks`: what a task knows of the transactions that it
  works on (`ActSim`). `Idle`: threads that wait for work of their process have none of their own.
* `Sim`: all of it. `Sim.step`: the rule for a step of a task.
-/

namespace Redroid.Binder.Txn

open CallChain Relation

/-- The transactions that a task works on. -/
def Act.owns (act : Act) : List TxnId := act.holds.toList ++ act.refs

/-- The transaction that a task brings to user space. -/
def Act.brings : Act → Option TxnId
  | .deliver _ t | .copy _ t | .delivered _ t _ => some t
  | _ => none

/-- After the copy to user space nothing else is left to do. -/
def Act.lands : Act → Bool
  | .copy .. | .delivered .. => true
  | _ => false

/-- In `binder_thread_read`, with `wait_for_proc_work`. -/
def Act.idles : Act → Option ThreadId
  | .wait x true | .sleep x true | .read x true => some x
  | _ => none

/-- Where the transactions are that wait for somebody: on a work list, or with a task. -/
def TxnState.owned (s : TxnState) : Place → List TxnId
  | .list l => (s.todo l).filterMap Work.txn?
  | .actor a => (s.frames a).flatMap Act.owns

/-- The chains; `call`: a synchronous transaction to a node; `stale`: `from` and `from_parent` say
nothing of the chains. -/
structure Ghost where
  net : Net ThreadId TxnId
  call : TxnId → Prop
  stale : TxnId → Prop

variable {L : Layout} {s s' s₁ : TxnState} {G G' : Ghost} {t u r : TxnId} {b : BufId} {x y z : ThreadId}
  {T : Transaction} {B : Buffer} {a : Actor} {act : Act} {rest rest' m : List Act} {env : Env}
  {l : WorkList} {ws : List Work}

/-- The call `t` is on its way to the thread `x`. -/
def Coming (s : TxnState) (call : TxnId → Prop) (x : ThreadId) (t : TxnId) : Prop :=
  (s.thread x).isDead = false ∧ call t ∧ (.transaction t ∈ s.todo (.thread x) ∨
    (∃ act ∈ s.frames (.thread x), act.brings = some t) ∨
    ∃ a z, .procTransaction z t (some x) ∈ s.frames a)

/-- `x` may call, and may call `th` if that waits for it. -/
structure Ready (s : TxnState) (G : Ghost) (x : ThreadId) (th : Option ThreadId) : Prop where
  top : ∀ c l, G.net.stack x ≠ .call c :: l
  coming : ∀ u, ¬ Coming s G.call x u
  waits : ∀ y, th = some y → x ≠ y ∧ ((s.thread y).isDead = false → G.net.Waits y x)

/-- `irt` is over, and `th` has called it. -/
def ReplyOk (s : TxnState) (G : Ghost) (irt : Option TxnId) (th : Option ThreadId) : Prop :=
  ∀ r, irt = some r → G.call r ∧ ¬ G.stale r ∧
    ∃ y, th = some y ∧ ((s.thread y).isDead = false → G.net.caller r = some y)

/-- What a task knows of the transactions that it works on. -/
def ActSim (s : TxnState) (G : Ghost) : Act → Prop
  | .replyTarget _ t _ | .sendFailedReply t => G.call t ∧ ¬ G.stale t
  | .send x _ _ irt th oneWay => ReplyOk s G irt th ∧ (irt = none → oneWay = false → Ready s G x th)
  | .build x t irt th => ReplyOk s G irt th ∧ (G.stale t ↔ G.call t) ∧ ∃ T, s.txn t = some T ∧
      T.fromParent = none ∧
      T.fromThread = (if irt.isNone && !T.oneWay then some x else none) ∧
      (G.call t ↔ irt = none ∧ T.oneWay = false) ∧ (irt = none → T.oneWay = false → Ready s G x th)
  | .procTransaction x t th => ¬ G.stale t ∧ (G.call t → G.net.caller t = some x ∧
      ∀ y, th = some y → (s.thread y).isDead = false → G.net.stack y ≠ [])
  | .unwind _ irt => ∀ r, irt = some r → G.call r ∧ ¬ G.stale r
  | .freeTransaction t => G.stale t
  | .cleanupTransaction t | .deliver _ t | .copy _ t => ¬ G.stale t
  | .delivered _ t isReply => ¬ G.stale t ∧
      ∀ T, s.txn t = some T → (G.call t ↔ isReply = false ∧ T.oneWay = false)
  | _ => True

/-- What the structs say of the chains. -/
structure Data (L : Layout) (s : TxnState) (G : Ghost) : Prop where
  top : ∀ {x}, (s.thread x).isDead = false →
    (s.thread x).transactionStack = (G.net.stack x).head?.map Entry.id
  gone : ∀ {x}, (s.thread x).isDead = true → G.net.stack x = []
  absent : ∀ {t}, s.txn t = none ↔ G.net.status t = .absent
  stacked : ∀ {t}, G.net.status t ≠ .absent → G.net.status t ≠ .held → G.call t ∧ ¬ G.stale t
  server : ∀ {t x T}, G.net.status t = .served x → s.txn t = some T → T.toThread = some x
  below : ∀ {x l₁ t l₂ T}, G.net.stack x = l₁ ++ .serve t :: l₂ → s.txn t = some T →
    T.toParent = l₂.head?.map Entry.id
  fresh : ∀ {t T}, s.txn t = some T → ¬ G.stale t →
    G.net.caller t = T.fromThread ∧ G.net.parent t = T.fromParent
  stale : ∀ {t}, G.stale t → G.net.caller t = none ∧ G.net.parent t = none
  plain : ∀ {t T}, s.txn t = some T → ¬ G.call t → T.fromThread = none ∧ T.fromParent = none
  kind : ∀ {t T b B}, s.txn t = some T → T.buffer = some b → s.buf b = some B →
    T.toProc = some B.proc ∧ (G.call t ↔ B.targetNode.isSome ∧ T.oneWay = false)
  apart : ∀ {t T x}, s.txn t = some T → T.fromThread = some x → T.toProc ≠ some (L.procOf x)
  toThread : ∀ {t T y}, s.txn t = some T → T.toThread = some y → T.toProc = some (L.procOf y)

/-- Where the transactions are, and what the tasks know of them. -/
structure Tasks (L : Layout) (s : TxnState) (G : Ghost) : Prop where
  held : ∀ {t}, G.net.status t = .held ↔ OnList s.owned t
  placed : Placed s.owned
  queued : ∀ {l t}, .transaction t ∈ s.todo l → ¬ G.stale t
  acts : ∀ {a act}, act ∈ s.frames a → ActSim s G act
  unwinds : ∀ {a t irt}, .unwind t irt ∈ s.frames a → G.stale t ∨
    ∃ x rest, s.frames a = .popTransaction x t :: .unwind t irt :: rest
  pops : ∀ {a x t}, .popTransaction x t ∈ s.frames a → G.net.caller t = some x ∧ ¬ G.stale t ∧
    ∃ rest, s.frames a = .popTransaction x t :: .unwind t none :: rest ∧
      ∀ y u, .popTransaction y u ∉ rest
  brought : ∀ {x act t T}, act ∈ s.frames (.thread x) → act.brings = some t → s.txn t = some T →
    T.toProc = some (L.procOf x)
  lands : ∀ {a act}, act ∈ s.frames a → act.lands = true → s.frames a = [act]
  after : ∀ a, (s.frames a).Pairwise fun act act' => act.reads = true → act'.owns = []

/-- Threads that wait for work of their process. -/
structure Idle (s : TxnState) (G : Ghost) : Prop where
  idle : ∀ {x act}, act ∈ s.frames (.thread x) → act.idles = some x → G.net.stack x = []
  first : ∀ {x t}, (s.thread x).isDead = false → G.net.stack x = [] → G.call t →
    .transaction t ∈ s.todo (.thread x) → (s.todo (.thread x)).head? = some (.transaction t)
  quiet : ∀ {x}, .wait x true ∈ s.frames (.thread x) ∨ .sleep x true ∈ s.frames (.thread x) →
    (s.thread x).processTodo = false → s.todo (.thread x) = []
  waiting : ∀ {p x}, x ∈ s.waitingThreads p → (s.thread x).processTodo = false

structure Sim (L : Layout) (s : TxnState) (G : Ghost) : Prop where
  ok : Ok G.net (Coming s G.call)
  ends : G.net.Ends
  data : Data L s G
  tasks : Tasks L s G
  idle : Idle s G

/-! ## The structs and the chains -/

/-- A step that the chains do not see: a transaction may lose its buffer. -/
structure SameNet (s s' : TxnState) : Prop where
  txn : ∀ t, s'.txn t = s.txn t ∨ ∃ T, s.txn t = some T ∧ s'.txn t = some { T with buffer := none }
  buf : ∀ {b B'}, s'.buf b = some B' →
    ∃ B, s.buf b = some B ∧ B'.proc = B.proc ∧ B'.targetNode = B.targetNode
  stack : ∀ x, (s'.thread x).transactionStack = (s.thread x).transactionStack
  dead : ∀ x, (s'.thread x).isDead = (s.thread x).isDead

theorem SameNet.of_eq (htxn : s'.txn = s.txn) (hbuf : s'.buf = s.buf)
    (hstack : ∀ x, (s'.thread x).transactionStack = (s.thread x).transactionStack)
    (hdead : ∀ x, (s'.thread x).isDead = (s.thread x).isDead) : SameNet s s' :=
  ⟨fun _ => .inl (by rw [htxn]), fun hb => ⟨_, by rwa [hbuf] at hb, rfl, rfl⟩, hstack, hdead⟩

/-- All but the buffer. -/
structure Transaction.Same (T T' : Transaction) : Prop where
  fromThread : T'.fromThread = T.fromThread
  fromParent : T'.fromParent = T.fromParent
  toProc : T'.toProc = T.toProc
  toThread : T'.toThread = T.toThread
  toParent : T'.toParent = T.toParent
  oneWay : T'.oneWay = T.oneWay
  buffer : T'.buffer = T.buffer ∨ T'.buffer = none

theorem SameNet.of_some (h : SameNet s s') {T' : Transaction} (hT : s'.txn t = some T') :
    ∃ T, s.txn t = some T ∧ T.Same T' := by
  rcases h.txn t with he | ⟨T, hT₀, he⟩
  · exact ⟨T', by rw [← he, hT], ⟨rfl, rfl, rfl, rfl, rfl, rfl, .inl rfl⟩⟩
  · rw [he] at hT
    cases hT
    exact ⟨T, hT₀, ⟨rfl, rfl, rfl, rfl, rfl, rfl, .inr rfl⟩⟩

theorem SameNet.none_iff (h : SameNet s s') : s'.txn t = none ↔ s.txn t = none := by
  rcases h.txn t with he | ⟨T, hT₀, he⟩
  · rw [he]
  · simp [he, hT₀]

theorem Data.same (h : Data L s G) (hs : SameNet s s') : Data L s' G where
  top hd := by rw [hs.stack]; exact h.top (by rwa [hs.dead] at hd)
  gone hd := h.gone (by rwa [hs.dead] at hd)
  absent := hs.none_iff.trans h.absent
  stacked := h.stacked
  server hx hT := by
    obtain ⟨U, hU, he⟩ := hs.of_some hT
    rw [he.toThread]
    exact h.server hx hU
  below hl hT := by
    obtain ⟨U, hU, he⟩ := hs.of_some hT
    rw [he.toParent]
    exact h.below hl hU
  fresh hT hn := by
    obtain ⟨U, hU, he⟩ := hs.of_some hT
    rw [he.fromThread, he.fromParent]
    exact h.fresh hU hn
  stale := h.stale
  plain hT hn := by
    obtain ⟨U, hU, he⟩ := hs.of_some hT
    rw [he.fromThread, he.fromParent]
    exact h.plain hU hn
  kind hT hb hB := by
    obtain ⟨U, hU, he⟩ := hs.of_some hT
    obtain ⟨B, hB, hp, hn⟩ := hs.buf hB
    rw [he.toProc, he.oneWay, hp, hn]
    refine h.kind hU ?_ hB
    rcases he.buffer with hbuf | hbuf <;> rw [hbuf] at hb
    · exact hb
    · cases hb
  apart hT hx := by
    obtain ⟨U, hU, he⟩ := hs.of_some hT
    rw [he.fromThread] at hx
    rw [he.toProc]
    exact h.apart hU hx
  toThread hT hy := by
    obtain ⟨U, hU, he⟩ := hs.of_some hT
    rw [he.toThread] at hy
    rw [he.toProc]
    exact h.toThread hU hy

/-- `from` and `from_parent` of `t` say nothing any more, or say nothing yet. -/
def Ghost.over (G : Ghost) (t : TxnId) : Ghost := { G with stale := fun u => u = t ∨ G.stale u }

def Ghost.begun (G : Ghost) (t : TxnId) : Ghost := { G with stale := fun u => u ≠ t ∧ G.stale u }

def Ghost.withNet (G : Ghost) (g : Net ThreadId TxnId) : Ghost := { G with net := g }

@[simp] theorem Ghost.over_net : (G.over t).net = G.net := rfl
@[simp] theorem Ghost.over_call : (G.over t).call = G.call := rfl
@[simp] theorem Ghost.over_stale : (G.over t).stale u ↔ u = t ∨ G.stale u := .rfl
@[simp] theorem Ghost.begun_net : (G.begun t).net = G.net := rfl
@[simp] theorem Ghost.begun_call : (G.begun t).call = G.call := rfl
@[simp] theorem Ghost.begun_stale : (G.begun t).stale u ↔ u ≠ t ∧ G.stale u := .rfl
@[simp] theorem Ghost.withNet_net {g : Net ThreadId TxnId} : (G.withNet g).net = g := rfl
@[simp] theorem Ghost.withNet_call {g : Net ThreadId TxnId} : (G.withNet g).call = G.call := rfl
@[simp] theorem Ghost.withNet_stale {g : Net ThreadId TxnId} : (G.withNet g).stale = G.stale := rfl

theorem Data.over (h : Data L s G) (ht : G.net.status t = .held) (hc : G.net.caller t = none)
    (hp : G.net.parent t = none) : Data L s (G.over t) :=
  { h with
    stacked := fun {u} ha hh => by
      refine ⟨(h.stacked ha hh).1, ?_⟩
      rintro (rfl | hu)
      · exact hh ht
      · exact (h.stacked ha hh).2 hu
    fresh := fun hT hn => h.fresh hT fun hu => hn (.inr hu)
    stale := fun {u} hu => by
      rcases hu with rfl | hu
      · exact ⟨hc, hp⟩
      · exact h.stale hu }

/-- A new transaction. -/
def Ghost.alloc (G : Ghost) (t : TxnId) (c : Prop) : Ghost where
  net := G.net.new t
  call u := (u = t ∧ c) ∨ (u ≠ t ∧ G.call u)
  stale u := (u = t ∧ c) ∨ (u ≠ t ∧ G.stale u)

theorem Ghost.alloc_call (c : Prop) (hu : u ≠ t) : (G.alloc t c).call u ↔ G.call u := by
  simp [Ghost.alloc, hu]

theorem Ghost.alloc_call_self (c : Prop) : (G.alloc t c).call t ↔ c := by
  simp [Ghost.alloc]

theorem Ghost.alloc_stale (c : Prop) (hu : u ≠ t) : (G.alloc t c).stale u ↔ G.stale u := by
  simp [Ghost.alloc, hu]

theorem Ghost.alloc_stale_self (c : Prop) : (G.alloc t c).stale t ↔ c := by
  simp [Ghost.alloc]

theorem Data.alloc {due : ThreadId → TxnId → Prop} {tp : ProcId} {n : Option NodeId} {irt : Option TxnId}
    {th : Option ThreadId} {oneWay : Bool} (h : Data L s G) (ok : Ok G.net due) (hl : Links s)
    (hth : ∀ y, th = some y → L.procOf y = tp) (hn : n.isSome = irt.isNone)
    (hx : irt = none → L.procOf x ≠ tp) :
    Data L (s.allocTxn x tp n irt th oneWay) (G.alloc s.nextTxn (irt = none ∧ oneWay = false)) := by
  have hnone : s.txn s.nextTxn = none := by
    cases hT : s.txn s.nextTxn with
    | none => rfl
    | some T => exact absurd (hl.txn_lt hT) (lt_irrefl _)
  have habs := h.absent.mp hnone
  have hab := ok.absent habs
  have hself {T : Transaction}
      (hT : (s.allocTxn x tp n irt th oneWay).txn s.nextTxn = some T) :
      T = { fromThread := if irt.isNone && !oneWay then some x else none, fromParent := none
            toProc := some tp, toThread := th, toParent := none, buffer := some s.nextBuf, oneWay } := by
    simp only [TxnState.allocTxn, TxnState.setBuf_txn, TxnState.setTxn_txn, Function.update_self] at hT
    exact (Option.some.inj hT).symm
  have hne {u : TxnId} (hu : u ≠ s.nextTxn) : (s.allocTxn x tp n irt th oneWay).txn u = s.txn u := by
    simp [TxnState.allocTxn, hu]
  have hst {u : TxnId} (hu : u ≠ s.nextTxn) : (G.net.new s.nextTxn).status u = G.net.status u := by
    simp [hu]
  have hst' : (G.net.new s.nextTxn).status s.nextTxn = .held := by simp
  constructor
  · exact h.top
  · exact h.gone
  · intro u
    change _ ↔ (G.net.new s.nextTxn).status u = .absent
    rcases eq_or_ne u s.nextTxn with rfl | hu
    · rw [hst']
      simp [TxnState.allocTxn]
    · rw [hne hu, hst hu]
      exact h.absent
  · intro u ha hh
    rcases eq_or_ne u s.nextTxn with rfl | hu
    · exact absurd hst' hh
    · obtain ⟨hc, hs⟩ := h.stacked (t := u) (by rwa [← hst hu]) (by rwa [← hst hu])
      exact ⟨(Ghost.alloc_call _ hu).mpr hc, fun ho => hs ((Ghost.alloc_stale _ hu).mp ho)⟩
  · intro u z T hz hT
    rcases eq_or_ne u s.nextTxn with rfl | hu
    · exact absurd (hst'.symm.trans hz) (by simp)
    · exact h.server ((hst hu).symm.trans hz) (by rwa [hne hu] at hT)
  · intro z l₁ u l₂ T hz hT
    refine h.below hz ?_
    rwa [hne] at hT
    rintro rfl
    have := ok.serve_iff.mp (show .serve s.nextTxn ∈ G.net.stack z by
      rw [show G.net.stack z = _ from hz]; simp)
    rw [habs] at this
    cases this
  · intro u T hT hs
    rcases eq_or_ne u s.nextTxn with rfl | hu
    · rw [Ghost.alloc_stale_self] at hs
      rw [hself hT]
      refine ⟨hab.1.trans (if_neg ?_).symm, hab.2⟩
      simpa using hs
    · rw [Ghost.alloc_stale _ hu] at hs
      exact h.fresh (by rwa [hne hu] at hT) hs
  · intro u hu
    rcases eq_or_ne u s.nextTxn with rfl | hne'
    · exact hab
    · exact h.stale ((Ghost.alloc_stale _ hne').mp hu)
  · intro u T hT hn
    rcases eq_or_ne u s.nextTxn with rfl | hu
    · rw [Ghost.alloc_call_self] at hn
      rw [hself hT]
      refine ⟨if_neg ?_, rfl⟩
      simpa using hn
    · rw [Ghost.alloc_call _ hu] at hn
      exact h.plain (by rwa [hne hu] at hT) hn
  · intro u T b B hT hb hB
    rcases eq_or_ne u s.nextTxn with rfl | hu
    · rw [hself hT] at hb ⊢
      cases hb
      rw [Ghost.alloc_call_self]
      simp only [TxnState.allocTxn, TxnState.setBuf_buf, Function.update_self,
        Option.some.injEq] at hB
      rw [← hB]
      simp [hn]
    · rw [hne hu] at hT
      rw [Ghost.alloc_call _ hu]
      refine h.kind hT hb ?_
      have := hl.buffer_lt hT hb
      simpa [TxnState.allocTxn, this.ne] using hB
  · intro u T z hT hz
    rcases eq_or_ne u s.nextTxn with rfl | hu
    · rw [hself hT] at hz ⊢
      simp only [Option.ite_none_right_eq_some, Option.some.injEq, Bool.and_eq_true,
        Option.isNone_iff_eq_none] at hz
      obtain ⟨⟨hi, -⟩, rfl⟩ := hz
      exact fun he => hx hi (Option.some.inj he).symm
    · exact h.apart (by rwa [hne hu] at hT) hz
  · intro u T z hT hz
    rcases eq_or_ne u s.nextTxn with rfl | hu
    · rw [hself hT] at hz ⊢
      exact congrArg some (hth z hz).symm
    · exact h.toThread (by rwa [hne hu] at hT) hz

/-- A transaction is freed. -/
theorem Data.free (h : Data L s G) (ht : G.net.status t = .held) :
    Data L (s.setTxn t none) (G.withNet (G.net.finish t)) := by
  have hne {u : TxnId} (hu : u ≠ t) : (s.setTxn t none).txn u = s.txn u := by simp [hu]
  have hst {u : TxnId} (hu : u ≠ t) : (G.net.finish t).status u = G.net.status u := by simp [hu]
  have hst' : (G.net.finish t).status t = .absent := by simp
  have hT' {u : TxnId} {T : Transaction} (hT : (s.setTxn t none).txn u = some T) :
      u ≠ t ∧ s.txn u = some T := by
    rcases eq_or_ne u t with rfl | hu
    · simp at hT
    · exact ⟨hu, by rwa [hne hu] at hT⟩
  constructor
  · exact h.top
  · exact h.gone
  · intro u
    rcases eq_or_ne u t with rfl | hu
    · simp
    · rw [hne hu, Ghost.withNet_net, hst hu]
      exact h.absent
  · intro u ha hh
    rw [Ghost.withNet_net] at ha hh
    rcases eq_or_ne u t with rfl | hu
    · exact absurd hst' ha
    · exact h.stacked (by rwa [← hst hu]) (by rwa [← hst hu])
  · intro u z T hz hT
    obtain ⟨hu, hT⟩ := hT' hT
    exact h.server ((hst hu).symm.trans hz) hT
  · exact fun hl hT => h.below hl (hT' hT).2
  · exact fun hT hs => h.fresh (hT' hT).2 hs
  · exact h.stale
  · exact fun hT hn => h.plain (hT' hT).2 hn
  · exact fun hT hb hB => h.kind (hT' hT).2 hb hB
  · exact fun hT hx => h.apart (hT' hT).2 hx
  · exact fun hT hy => h.toThread (hT' hT).2 hy

theorem Data.alive (h : Data L s G) (hs : G.net.stack x ≠ []) : (s.thread x).isDead = false := by
  cases hd : (s.thread x).isDead with
  | false => rfl
  | true => exact absurd (h.gone hd) hs

theorem Data.txn (h : Data L s G) (ht : G.net.status t ≠ .absent) : ∃ T, s.txn t = some T := by
  cases hT : s.txn t with
  | none => exact absurd (h.absent.mp hT) ht
  | some T => exact ⟨T, rfl⟩

section Steps

variable {due : ThreadId → TxnId → Prop} {r' : List (Entry TxnId)}

/-- The stack pointer of a thread after a change of the stack of one thread. -/
theorem Data.top_update (h : Data L s G) {st : ThreadId → List (Entry TxnId)} {v : Option TxnId}
    {es : List (Entry TxnId)} (hst : st = Function.update G.net.stack y es)
    (hv : v = es.head?.map Entry.id) (hz : ((s.setStack y v).thread z).isDead = false) :
    ((s.setStack y v).thread z).transactionStack = (st z).head?.map Entry.id := by
  rw [hst]
  rcases eq_or_ne z y with rfl | hne
  · simpa using hv
  · simp only [TxnState.setStack, TxnState.setThread_thread, Function.update_of_ne hne] at hz ⊢
    exact h.top hz

theorem Data.gone_update (h : Data L s G) {st : ThreadId → List (Entry TxnId)} {v : Option TxnId}
    {es : List (Entry TxnId)} (hst : st = Function.update G.net.stack y es)
    (hy : (s.thread y).isDead = false) (hz : ((s.setStack y v).thread z).isDead = true) : st z = [] := by
  rw [isDead_setStack] at hz
  rw [hst, Function.update_of_ne]
  · exact h.gone hz
  · rintro rfl
    rw [hy] at hz
    cases hz

/-- `binder_pop_transaction_ilocked` of a call that is on top of its caller's stack. -/
theorem Data.resume (h : Data L s G) (ok : Ok G.net due) (hy : G.net.stack y = .call t :: r')
    (ht : G.net.status t = .held) (hT : s.txn t = some T) (hs : ¬ G.stale t) :
    Data L ((s.setStack y T.fromParent).setTxn t (some { T with fromThread := none }))
      ((G.withNet (G.net.resume y t)).over t) := by
  have hst : (G.net.resume y t).stack = Function.update G.net.stack y r' := by
    rw [Net.resume_stack, hy, List.tail_cons]
  have hpar : T.fromParent = r'.head?.map Entry.id := by
    rw [← (h.fresh hT hs).2]
    exact ok.callParent (show G.net.stack y = [] ++ _ from hy)
  have hcaller : G.net.caller t = some y := ok.call_iff.mp (by rw [hy]; simp)
  have hfrom : T.fromThread = some y := (h.fresh hT hs).1.symm.trans hcaller
  have hcall : G.call t := by
    by_contra hn
    rw [(h.plain hT hn).1] at hfrom
    cases hfrom
  have hne {u : TxnId} (hu : u ≠ t) :
      ((s.setStack y T.fromParent).setTxn t (some { T with fromThread := none })).txn u = s.txn u := by
    simp [hu]
  have hself {U : Transaction} (hU : ((s.setStack y T.fromParent).setTxn t
      (some { T with fromThread := none })).txn t = some U) : U = { T with fromThread := none } := by
    rw [TxnState.setTxn_txn, Function.update_self] at hU
    exact (Option.some.inj hU).symm
  constructor
  · exact fun hz => h.top_update (s := s) hst hpar hz
  · exact fun hz => h.gone_update (s := s) hst (h.alive (by rw [hy]; simp)) hz
  · intro u
    rcases eq_or_ne u t with rfl | hu
    · simp [ht]
    · rw [hne hu]
      exact h.absent
  · intro u ha hh
    refine ⟨(h.stacked ha hh).1, ?_⟩
    rintro (rfl | hu)
    · exact hh ht
    · exact (h.stacked ha hh).2 hu
  · intro u z U hz hU
    have hu : u ≠ t := by
      rintro rfl
      cases ht.symm.trans hz
    exact h.server hz (by rwa [hne hu] at hU)
  · intro z l₁ u l₂ U hz hU
    have hz : (G.net.resume y t).stack z = _ := hz
    rw [hst] at hz
    obtain ⟨l₀, hl₀⟩ := split_pop hy hz
    refine h.below hl₀ ?_
    rwa [hne] at hU
    rintro rfl
    have := ok.serve_iff.mp (show .serve u ∈ G.net.stack z by rw [hl₀]; simp)
    rw [ht] at this
    cases this
  · intro u U hU hus
    have hu : u ≠ t := fun he => hus (.inl he)
    rw [hne hu] at hU
    obtain ⟨h₁, h₂⟩ := h.fresh hU fun hs' => hus (.inr hs')
    refine ⟨?_, ?_⟩
    · rw [← h₁]
      exact Function.update_of_ne hu ..
    · rw [← h₂]
      exact Function.update_of_ne hu ..
  · intro u hu
    rcases eq_or_ne u t with rfl | hut
    · exact ⟨Function.update_self .., Function.update_self ..⟩
    · obtain ⟨h₁, h₂⟩ := h.stale (hu.resolve_left hut)
      exact ⟨(Function.update_of_ne hut ..).trans h₁, (Function.update_of_ne hut ..).trans h₂⟩
  · intro u U hU hn
    have hu : u ≠ t := fun he => hn (he ▸ hcall)
    exact h.plain (by rwa [hne hu] at hU) hn
  · intro u U b B hU hb hB
    rcases eq_or_ne u t with rfl | hu
    · rw [hself hU] at hb ⊢
      exact h.kind (T := T) hT hb hB
    · exact h.kind (by rwa [hne hu] at hU) hb hB
  · intro u U z hU hz
    rcases eq_or_ne u t with rfl | hu
    · rw [hself hU] at hz
      cases hz
    · exact h.apart (by rwa [hne hu] at hU) hz
  · intro u U z hU hz
    rcases eq_or_ne u t with rfl | hu
    · rw [hself hU] at hz ⊢
      exact h.toThread (T := T) hT hz
    · exact h.toThread (by rwa [hne hu] at hU) hz

/-- The transaction goes on its sender's stack. -/
theorem Data.call (h : Data L s G) (ht : G.net.status t = .held) (hT : s.txn t = some T)
    (hs : G.stale t) (hx : (s.thread x).isDead = false) (hfrom : T.fromThread = some x) :
    Data L ((s.setTxn t (some { T with fromParent := (s.thread x).transactionStack })).setStack x
      (some t)) ((G.withNet (G.net.call x t)).begun t) := by
  have hst : (G.net.call x t).stack = Function.update G.net.stack x (.call t :: G.net.stack x) := rfl
  have hcall : G.call t := by
    by_contra hn
    rw [(h.plain hT hn).1] at hfrom
    cases hfrom
  have hne {u : TxnId} (hu : u ≠ t) : ((s.setTxn t (some { T with
      fromParent := (s.thread x).transactionStack })).setStack x (some t)).txn u = s.txn u := by
    simp [hu]
  have hself {U : Transaction} (hU : ((s.setTxn t (some { T with
      fromParent := (s.thread x).transactionStack })).setStack x (some t)).txn t = some U) :
      U = { T with fromParent := (s.thread x).transactionStack } := by
    rw [TxnState.setStack_txn, TxnState.setTxn_txn, Function.update_self] at hU
    exact (Option.some.inj hU).symm
  constructor
  · exact fun hz => h.top_update (s := s) (v := some t) hst rfl hz
  · exact fun hz => h.gone_update (s := s) (v := some t) hst hx hz
  · intro u
    rcases eq_or_ne u t with rfl | hu
    · simp [ht]
    · rw [hne hu]
      exact h.absent
  · exact fun ha hh => ⟨(h.stacked ha hh).1, fun hu => (h.stacked ha hh).2 hu.2⟩
  · intro u z U hz hU
    have hu : u ≠ t := by
      rintro rfl
      cases ht.symm.trans hz
    exact h.server hz (by rwa [hne hu] at hU)
  · intro z l₁ u l₂ U hz hU
    rcases split_push (show Function.update G.net.stack x _ z = _ from hz) with ⟨-, he, -⟩ | ⟨l₀, hl₀⟩
    · cases he
    · rcases eq_or_ne u t with rfl | hu
      · rw [hself hU]
        exact h.below (T := T) hl₀ hT
      · exact h.below hl₀ (by rwa [hne hu] at hU)
  · intro u U hU hus
    rcases eq_or_ne u t with rfl | hu
    · rw [hself hU]
      refine ⟨(Function.update_self ..).trans hfrom.symm, (Function.update_self ..).trans ?_⟩
      exact (h.top hx).symm
    · rw [hne hu] at hU
      obtain ⟨h₁, h₂⟩ := h.fresh hU fun hs' => hus ⟨hu, hs'⟩
      exact ⟨(Function.update_of_ne hu ..).trans h₁, (Function.update_of_ne hu ..).trans h₂⟩
  · rintro u ⟨hu, hus⟩
    obtain ⟨h₁, h₂⟩ := h.stale hus
    exact ⟨(Function.update_of_ne hu ..).trans h₁, (Function.update_of_ne hu ..).trans h₂⟩
  · intro u U hU hn
    have hu : u ≠ t := fun he => hn (he ▸ hcall)
    exact h.plain (by rwa [hne hu] at hU) hn
  · intro u U b B hU hb hB
    rcases eq_or_ne u t with rfl | hu
    · rw [hself hU] at hb ⊢
      exact h.kind (T := T) hT hb hB
    · exact h.kind (by rwa [hne hu] at hU) hb hB
  · intro u U z hU hz
    rcases eq_or_ne u t with rfl | hu
    · rw [hself hU] at hz ⊢
      exact h.apart (T := T) hT hz
    · exact h.apart (by rwa [hne hu] at hU) hz
  · intro u U z hU hz
    rcases eq_or_ne u t with rfl | hu
    · rw [hself hU] at hz ⊢
      exact h.toThread (T := T) hT hz
    · exact h.toThread (by rwa [hne hu] at hU) hz

/-- The transaction has reached user space, and goes on the stack of the thread that serves it. -/
theorem Data.serve (h : Data L s G) (ok : Ok G.net due) (ht : G.net.status t = .held) (hT : s.txn t = some T)
    (hs : ¬ G.stale t) (hx : (s.thread x).isDead = false) (hc : G.call t)
    (hp : T.toProc = some (L.procOf x)) :
    Data L ((s.setTxn t (some { T with toParent := (s.thread x).transactionStack
                                       toThread := some x })).setStack x (some t))
      (G.withNet (G.net.serve x t)) := by
  have hst : (G.net.serve x t).stack = Function.update G.net.stack x (.serve t :: G.net.stack x) := rfl
  have hne {u : TxnId} (hu : u ≠ t) : ((s.setTxn t (some { T with
      toParent := (s.thread x).transactionStack, toThread := some x })).setStack x (some t)).txn u =
        s.txn u := by
    simp [hu]
  have hself {U : Transaction} (hU : ((s.setTxn t (some { T with
      toParent := (s.thread x).transactionStack, toThread := some x })).setStack x (some t)).txn t =
        some U) : U = { T with toParent := (s.thread x).transactionStack, toThread := some x } := by
    rw [TxnState.setStack_txn, TxnState.setTxn_txn, Function.update_self] at hU
    exact (Option.some.inj hU).symm
  have hstatus {u : TxnId} (hu : u ≠ t) : (G.net.serve x t).status u = G.net.status u :=
    Function.update_of_ne hu ..
  have hstatus' : (G.net.serve x t).status t = .served x := Function.update_self ..
  constructor
  · exact fun hz => h.top_update (s := s) (v := some t) hst rfl hz
  · exact fun hz => h.gone_update (s := s) (v := some t) hst hx hz
  · intro u
    rw [Ghost.withNet_net]
    rcases eq_or_ne u t with rfl | hu
    · rw [hstatus']
      simp
    · rw [hne hu, hstatus hu]
      exact h.absent
  · intro u ha hh
    rcases eq_or_ne u t with rfl | hu
    · exact ⟨hc, hs⟩
    · exact h.stacked (by rwa [← hstatus hu]) (by rwa [← hstatus hu])
  · intro u z U hz hU
    rcases eq_or_ne u t with rfl | hu
    · cases hstatus'.symm.trans hz
      rw [hself hU]
    · exact h.server ((hstatus hu).symm.trans hz) (by rwa [hne hu] at hU)
  · intro z l₁ u l₂ U hz hU
    rcases split_push (show Function.update G.net.stack x _ z = _ from hz) with ⟨rfl, he, rfl⟩ | ⟨l₀, hl₀⟩
    · cases he
      rw [hself hU]
      exact h.top hx
    · refine h.below hl₀ ?_
      rwa [hne] at hU
      rintro rfl
      have := ok.serve_iff.mp (show .serve u ∈ G.net.stack z by rw [hl₀]; simp)
      rw [ht] at this
      cases this
  · intro u U hU hus
    rcases eq_or_ne u t with rfl | hu
    · rw [hself hU]
      exact h.fresh (T := T) hT hus
    · exact h.fresh (by rwa [hne hu] at hU) hus
  · exact h.stale
  · intro u U hU hn
    have hu : u ≠ t := fun he => hn (he ▸ hc)
    exact h.plain (by rwa [hne hu] at hU) hn
  · intro u U b B hU hb hB
    rcases eq_or_ne u t with rfl | hu
    · rw [hself hU] at hb ⊢
      exact h.kind (T := T) hT hb hB
    · exact h.kind (by rwa [hne hu] at hU) hb hB
  · intro u U z hU hz
    rcases eq_or_ne u t with rfl | hu
    · rw [hself hU] at hz ⊢
      exact h.apart (T := T) hT hz
    · exact h.apart (by rwa [hne hu] at hU) hz
  · intro u U z hU hz
    rcases eq_or_ne u t with rfl | hu
    · rw [hself hU] at hz ⊢
      cases hz
      exact hp
    · exact h.toThread (by rwa [hne hu] at hU) hz

/-- A thread replies: the call that it has served leaves its stack. -/
theorem Data.reply (h : Data L s G) (ok : Ok G.net due) (hx : G.net.stack x = .serve t :: r')
    (hT : s.txn t = some T) : Data L (s.setStack x T.toParent) (G.withNet (G.net.reply x t)) := by
  have hst : (G.net.reply x t).stack = Function.update G.net.stack x r' := by
    rw [Net.reply_stack, hx, List.tail_cons]
  have hserved : G.net.status t = .served x := ok.serve_iff.mp (by rw [hx]; simp)
  have hstatus {u : TxnId} (hu : u ≠ t) : (G.net.reply x t).status u = G.net.status u :=
    Function.update_of_ne hu ..
  have hstatus' : (G.net.reply x t).status t = .held := Function.update_self ..
  constructor
  · exact fun hz => h.top_update hst (h.below (show G.net.stack x = [] ++ _ from hx) hT) hz
  · exact fun hz => h.gone_update hst (h.alive (by rw [hx]; simp)) hz
  · intro u
    rw [Ghost.withNet_net]
    rcases eq_or_ne u t with rfl | hu
    · rw [hstatus', TxnState.setStack_txn, hT]
      simp
    · rw [hstatus hu]
      exact h.absent
  · intro u ha hh
    rcases eq_or_ne u t with rfl | hu
    · exact absurd hstatus' hh
    · exact h.stacked (by rwa [← hstatus hu]) (by rwa [← hstatus hu])
  · intro u z U hz hU
    have hu : u ≠ t := by
      rintro rfl
      cases hstatus'.symm.trans hz
    exact h.server ((hstatus hu).symm.trans hz) hU
  · intro z l₁ u l₂ U hz hU
    have hz : (G.net.reply x t).stack z = _ := hz
    rw [hst] at hz
    obtain ⟨l₀, hl₀⟩ := split_pop hx hz
    exact h.below hl₀ hU
  · exact h.fresh
  · exact h.stale
  · exact h.plain
  · exact h.kind
  · exact h.apart
  · exact h.toThread

/-- The end of `t`, whose caller has left, goes to the call that this has served. -/
theorem Data.pass (h : Data L s G) (ok : Ok G.net due) (ht : G.net.status t = .held)
    (hc : G.net.caller t = none) (hp : G.net.Calls r t) :
    Data L s ((G.withNet (G.net.pass t r)).over t) := by
  have hrt : r ≠ t := fun he => ok.parent_ne_held ht (he ▸ hp)
  have hleft : G.net.status r = .left := by
    rcases ok.parent hp with ⟨y, hy, -⟩ | ⟨-, hs⟩
    · rw [hc] at hy
      cases hy
    · exact hs
  have hstatus {u : TxnId} (hu : u ≠ r) : (G.net.pass t r).status u = G.net.status u :=
    Function.update_of_ne hu ..
  have hstatus' : (G.net.pass t r).status r = .held := Function.update_self ..
  constructor
  · exact h.top
  · exact h.gone
  · intro u
    rcases eq_or_ne u r with rfl | hu
    · rw [Ghost.over_net, Ghost.withNet_net, hstatus', h.absent, hleft]
      simp
    · rw [Ghost.over_net, Ghost.withNet_net, hstatus hu]
      exact h.absent
  · intro u ha hh
    rcases eq_or_ne u r with rfl | hu
    · exact absurd hstatus' hh
    · rw [Ghost.over_net, Ghost.withNet_net, hstatus hu] at ha hh
      refine ⟨(h.stacked ha hh).1, ?_⟩
      rintro (rfl | hus)
      · exact hh ht
      · exact (h.stacked ha hh).2 hus
  · intro u z U hz hU
    have hu : u ≠ r := by
      rintro rfl
      cases hstatus'.symm.trans hz
    exact h.server ((hstatus hu).symm.trans hz) hU
  · exact h.below
  · intro u U hU hus
    have hu : u ≠ t := fun he => hus (.inl he)
    obtain ⟨h₁, h₂⟩ := h.fresh hU fun hs' => hus (.inr hs')
    exact ⟨h₁, (Function.update_of_ne hu ..).trans h₂⟩
  · intro u hu
    rcases eq_or_ne u t with rfl | hut
    · exact ⟨hc, Function.update_self ..⟩
    · obtain ⟨h₁, h₂⟩ := h.stale (hu.resolve_left hut)
      exact ⟨h₁, (Function.update_of_ne hut ..).trans h₂⟩
  · exact h.plain
  · exact h.kind
  · exact h.apart
  · exact h.toThread

/-- What `binder_thread_release` of `x` has done to the transaction `t` on its stack. -/
def Released (es : List (Entry TxnId)) (t : TxnId) (T : Transaction) : Transaction :=
  if .serve t ∈ es then { T with toProc := none, toThread := none, buffer := none }
  else if .call t ∈ es then { T with fromThread := none }
  else T

theorem Released.of_not {es : List (Entry TxnId)} (hs : .serve t ∉ es) (hc : .call t ∉ es) :
    Released es t T = T := by
  rw [Released, if_neg hs, if_neg hc]

/-- A thread leaves. -/
theorem Data.exit (h : Data L s G) (ok : Ok G.net due)
    (htxn : ∀ u, s₁.txn u = (s.txn u).map (Released (G.net.stack x) u))
    (hbuf : ∀ {b B'}, s₁.buf b = some B' →
      ∃ B, s.buf b = some B ∧ B'.proc = B.proc ∧ B'.targetNode = B.targetNode)
    (hstack : ∀ z, (s₁.thread z).transactionStack = (s.thread z).transactionStack)
    (hdead : ∀ z, (s₁.thread z).isDead = if z = x then true else (s.thread z).isDead) :
    Data L s₁ (G.withNet (G.net.exit x)) := by
  have hserve {u : TxnId} : .serve u ∈ G.net.stack x ↔ G.net.status u = .served x := ok.serve_iff
  have hcall {u : TxnId} : .call u ∈ G.net.stack x ↔ G.net.caller u = some x := ok.call_iff
  have hT {u : TxnId} {U : Transaction} (hU : s₁.txn u = some U) :
      ∃ T, s.txn u = some T ∧ U = Released (G.net.stack x) u T := by
    rw [htxn, Option.map_eq_some_iff] at hU
    obtain ⟨T, hT, rfl⟩ := hU
    exact ⟨T, hT, rfl⟩
  have hstatus {u : TxnId} (hu : G.net.status u ≠ .served x) :
      (G.net.exit x).status u = G.net.status u := by
    rw [Net.exit_status, if_neg hu]
  have hheld {u : TxnId} (hu : G.net.status u = .served x) :
      (G.net.exit x).status u = .held ∨ (G.net.exit x).status u = .left := by
    rw [Net.exit_status, if_pos hu]
    split
    · exact .inl rfl
    · exact .inr rfl
  have hnil : (G.net.exit x).stack x = [] := Function.update_self ..
  have hstk {z : ThreadId} (hz : z ≠ x) : (G.net.exit x).stack z = G.net.stack z :=
    Function.update_of_ne hz ..
  constructor
  · intro z hz
    rw [hdead] at hz
    split at hz
    · cases hz
    · rename_i hzx
      rw [hstack, Ghost.withNet_net, hstk hzx]
      exact h.top hz
  · intro z hz
    rcases eq_or_ne z x with rfl | hzx
    · exact hnil
    · rw [hdead, if_neg hzx] at hz
      exact (hstk hzx).trans (h.gone hz)
  · intro u
    rw [htxn, Option.map_eq_none_iff, h.absent, Ghost.withNet_net]
    by_cases hu : G.net.status u = .served x
    · rcases hheld hu with he | he <;> rw [hu, he] <;> simp
    · rw [hstatus hu]
  · intro u ha hh
    by_cases hu : G.net.status u = .served x
    · exact h.stacked (by rw [hu]; simp) (by rw [hu]; simp)
    · exact h.stacked (by rwa [← hstatus hu]) (by rwa [← hstatus hu])
  · intro u z U hz hU
    obtain ⟨T, hT, rfl⟩ := hT hU
    have hu : G.net.status u ≠ .served x := by
      intro hu
      rcases hheld hu with he | he <;> cases he.symm.trans hz
    have := h.server ((hstatus hu).symm.trans hz) hT
    rw [Released, if_neg fun hs => hu (hserve.mp hs)]
    split
    · exact this
    · exact this
  · intro z l₁ u l₂ U hz hU
    obtain ⟨T, hT, rfl⟩ := hT hU
    have hzx : z ≠ x := by
      rintro rfl
      have hz : (G.net.exit z).stack z = _ := hz
      rw [hnil] at hz
      simp at hz
    have hz := (hstk hzx).symm.trans hz
    have hu : .serve u ∉ G.net.stack x := fun hs => by
      have := ok.serve_iff.mp (show .serve u ∈ G.net.stack z by rw [hz]; simp)
      rw [hserve.mp hs] at this
      cases this
      exact hzx rfl
    rw [Released, if_neg hu]
    split
    · exact h.below (T := T) hz hT
    · exact h.below hz hT
  · intro u U hU hus
    obtain ⟨T, hT, rfl⟩ := hT hU
    obtain ⟨h₁, h₂⟩ := h.fresh hT hus
    rw [Released]
    split
    · rename_i hs
      refine ⟨?_, h₂⟩
      rw [Ghost.withNet_net, Net.exit_caller, if_neg, h₁]
      -- what `x` serves it has not sent
      intro hc
      have hto := h.toThread hT (h.server (hserve.mp hs) hT)
      exact h.apart hT (h₁.symm.trans hc) hto
    · split
      · rename_i hs hc
        exact ⟨if_pos (hcall.mp hc), h₂⟩
      · rename_i hs hc
        refine ⟨?_, h₂⟩
        rw [Ghost.withNet_net, Net.exit_caller, if_neg fun he => hc (hcall.mpr he), h₁]
  · intro u hu
    obtain ⟨h₁, h₂⟩ := h.stale hu
    refine ⟨?_, h₂⟩
    rw [Ghost.withNet_net, Net.exit_caller, if_neg (by simp [h₁]), h₁]
  · intro u U hU hn
    obtain ⟨T, hT, rfl⟩ := hT hU
    obtain ⟨h₁, h₂⟩ := h.plain hT hn
    rw [Released]
    split
    · exact ⟨h₁, h₂⟩
    · split
      · exact ⟨rfl, h₂⟩
      · exact ⟨h₁, h₂⟩
  · intro u U b B hU hb hB
    obtain ⟨T, hT, rfl⟩ := hT hU
    obtain ⟨B₀, hB₀, hp, hn⟩ := hbuf hB
    rw [hp, hn]
    rw [Released] at hb ⊢
    split at hb
    · cases hb
    · rename_i hs
      rw [if_neg hs]
      split at hb
      · rename_i hc
        rw [if_pos hc]
        exact h.kind (T := T) hT hb hB₀
      · rename_i hc
        rw [if_neg hc]
        exact h.kind hT hb hB₀
  · intro u U z hU hz
    obtain ⟨T, hT, rfl⟩ := hT hU
    rw [Released] at hz ⊢
    split at hz
    · rename_i hs
      simp [hs]
    · rename_i hs
      rw [if_neg hs]
      split at hz
      · cases hz
      · rename_i hc
        rw [if_neg hc]
        exact h.apart hT hz
  · intro u U z hU hz
    obtain ⟨T, hT, rfl⟩ := hT hU
    rw [Released] at hz ⊢
    split at hz
    · cases hz
    · rename_i hs
      rw [if_neg hs]
      split at hz
      · rename_i hc
        rw [if_pos hc]
        exact h.toThread (T := T) hT hz
      · rename_i hc
        rw [if_neg hc]
        exact h.toThread hT hz

end Steps

end Redroid.Binder.Txn
