import Mathlib.Data.Option.Basic
import Redroid.Lib.Places
import Redroid.Binder.Txn

/-!
# What holds of transactions, buffers and stacks in every run

* `contents s`: the transactions that have not reached user space, by place: on a work list, or
  held by a task that sends or delivers them. Each is at one place (`Placed`).
* `Inv`: such a transaction is allocated, has its buffer and is linked with it, and the buffer is
  neither free for user space nor about to be freed (`Live`). The transactions that the code frees
  or takes apart (from a transaction stack, or from a parent pointer) are not among them
  (`Stacks`, `Act.refs`).
* `Inv.exec`: every step keeps it.
-/

namespace Redroid.Binder.Txn

/-- Where a transaction can be that has not reached user space. -/
inductive Place where
  | list (l : WorkList)
  | actor (a : Actor)
  deriving DecidableEq, Repr

def Work.txn? : Work → Option TxnId
  | .transaction t => some t
  | .other _ => none

/-- The transaction that a task sends or delivers. -/
def Act.holds : Act → Option TxnId
  | .build _ t _ _ | .procTransaction _ t _ | .unwind t _ | .deliver _ t | .copy _ t => some t
  | _ => none

/-- The buffer that a task frees in `binder_free_buf`. -/
def Act.frees : Act → Option BufId
  | .freeBuf b | .freeBufAsync b | .freeBufRelease b => some b
  | _ => none

/-- The transactions that have left all lists and that a task will use again. -/
def Act.refs : Act → List TxnId
  | .replyTarget _ irt _ => [irt]
  | .send _ _ _ irt _ _ | .build _ _ irt _ | .unwind _ irt => irt.toList
  | .sendFailedReply t | .freeTransaction t | .cleanupTransaction t | .delivered _ t _ => [t]
  | _ => []

/-- The thread whose task does this. -/
def Act.self : Act → Option ThreadId
  | .check x .. | .replyTarget x .. | .send x .. | .build x .. | .procTransaction x ..
  | .popTransaction x _ | .readRetry x | .wait x _ | .sleep x _ | .read x _ | .deliver x _
  | .copy x _ | .delivered x .. => some x
  | _ => none

namespace TxnState

/-- The transactions at a place. -/
def contents (s : TxnState) : Place → List TxnId
  | .list l => (s.todo l).filterMap Work.txn?
  | .actor a => (s.frames a).filterMap Act.holds

/-- The buffers that a task frees. -/
def freeing (s : TxnState) (a : Actor) : List BufId := (s.frames a).filterMap Act.frees

variable {s s' : TxnState}

theorem contents_setTodo (l : WorkList) (ws : List Work) :
    (s.setTodo l ws).contents =
      Function.update s.contents (.list l) (ws.filterMap Work.txn?) := by
  funext p
  rcases p with l' | a
  · by_cases h : l' = l
    · subst h; simp [contents]
    · simp [contents, h]
  · simp [contents]

theorem contents_setFrames (a : Actor) (acts : List Act) :
    (s.setFrames a acts).contents =
      Function.update s.contents (.actor a) (acts.filterMap Act.holds) := by
  funext p
  rcases p with l | a'
  · simp [contents]
  · by_cases h : a' = a
    · subst h; simp [contents]
    · simp [contents, h]

theorem freeing_setFrames (a : Actor) (acts : List Act) :
    (s.setFrames a acts).freeing = Function.update s.freeing a (acts.filterMap Act.frees) := by
  funext a'
  by_cases h : a' = a
  · subst h; simp [freeing]
  · simp [freeing, h]

end TxnState

variable {L : Layout} {s s' : TxnState} {c c' : Place → List TxnId} {t u : TxnId} {b : BufId}
  {x y : ThreadId} {T : Transaction} {B : Buffer} {a : Actor} {act : Act} {rest : List Act}

/-! ## The invariant -/

/-- A buffer at a place is one of the process that the place belongs to. A transaction waits in
`async_todo` of the node that it is sent to. -/
def AtPlace (L : Layout) (B : Buffer) : Place → Prop
  | .list (.proc p) => p = B.proc
  | .list (.thread x) => L.procOf x = B.proc
  | .list (.node n) => B.asyncTransaction = true ∧ B.targetNode = some n
  | .actor _ => True

/-- The transaction and the buffer of one that has not reached user space. -/
structure Live (L : Layout) (s : TxnState) (t : TxnId) (T : Transaction) (b : BufId) (B : Buffer) :
    Prop where
  txn : s.txn t = some T
  buffer : T.buffer = some b
  buf : s.buf b = some B
  transaction : B.transaction = some t
  allowUserFree : B.allowUserFree = false
  toParent : T.toParent = none
  toThread : ∀ y, T.toThread = some y → L.procOf y = B.proc
  owner : ∀ n, B.targetNode = some n → L.ownerOf n = B.proc
  async : B.asyncTransaction = true → T.oneWay = true ∧ B.targetNode.isSome

theorem Live.eq {T₁ : Transaction} {b₁ : BufId} {B₁ : Buffer} (h : Live L s t T₁ b₁ B₁)
    (hT : s.txn t = some T) (hb : T.buffer = some b) (hB : s.buf b = some B) :
    T₁ = T ∧ b₁ = b ∧ B₁ = B := by
  have h₁ := h.txn
  rw [hT] at h₁
  cases h₁
  have h₂ := h.buffer
  rw [hb] at h₂
  cases h₂
  have h₃ := h.buf
  rw [hB] at h₃
  cases h₃
  exact ⟨rfl, rfl, rfl⟩

/-- Transactions and buffers: the pointers between them, and the ids in use. -/
structure Links (s : TxnState) : Prop where
  link : ∀ {b B t}, s.buf b = some B → B.transaction = some t →
    ∃ T, s.txn t = some T ∧ T.buffer = some b
  inj : ∀ {t T u U b}, s.txn t = some T → s.txn u = some U → T.buffer = some b →
    U.buffer = some b → t = u
  toProc : ∀ {t T}, s.txn t = some T → T.toProc = none → T.buffer = none
  txn_lt : ∀ {t T}, s.txn t = some T → t < s.nextTxn
  buffer_lt : ∀ {t T b}, s.txn t = some T → T.buffer = some b → b < s.nextBuf
  buf_lt : ∀ {b B}, s.buf b = some B → b < s.nextBuf

/-- An earlier transaction that is not among the contents `c`, and will not be. -/
def Settled (c : Place → List TxnId) (s : TxnState) (t : TxnId) : Prop :=
  t < s.nextTxn ∧ ¬ OnList c t

/-- `t` may be on the transaction stack of `x`: if it came to `x`, then it has reached user
space. (A transaction that `x` has sent may still be on its way.) -/
def Stackable (c : Place → List TxnId) (s : TxnState) (x : ThreadId) (t : TxnId) : Prop :=
  t < s.nextTxn ∧ ∀ T, s.txn t = some T → T.toThread = some x → ¬ OnList c t

/-- The transaction stacks, through `to_parent` and `from_parent`. -/
structure Stacks (c : Place → List TxnId) (s : TxnState) : Prop where
  stack : ∀ {x t}, (s.thread x).transactionStack = some t → Stackable c s x t
  toParent : ∀ {t T x u}, s.txn t = some T → T.toThread = some x → T.toParent = some u →
    Stackable c s x u
  fromParent : ∀ {t T u}, s.txn t = some T → T.fromParent = some u → Settled c s u

/-- The top of the stack of `x` has reached user space. -/
def Calm (c : Place → List TxnId) (s : TxnState) (x : ThreadId) : Prop :=
  ∀ t, (s.thread x).transactionStack = some t → Settled c s t

/-- What a task knows of the transaction that it sends. -/
def ActOk (L : Layout) (c : Place → List TxnId) (s : TxnState) : Act → Prop
  | .check _ tp n _ => L.ownerOf n = tp
  | .send x tp n irt th oneWay =>
    (∀ y, th = some y → L.procOf y = tp) ∧ (∀ m, n = some m → L.ownerOf m = tp) ∧
      n.isSome = irt.isNone ∧ (irt = none → L.procOf x ≠ tp ∧ (oneWay = false → Calm c s x))
  | .build x t irt th => ∃ T b B, s.txn t = some T ∧ T.buffer = some b ∧ s.buf b = some B ∧
      T.toThread = th ∧ B.targetNode.isSome = irt.isNone ∧ (irt = none → L.procOf x ≠ B.proc ∧
        B.asyncTransaction = T.oneWay ∧ (T.oneWay = false → Calm c s x))
  | .procTransaction _ t th => ∃ T b B, s.txn t = some T ∧ T.buffer = some b ∧ s.buf b = some B ∧
      (∀ y, th = some y → T.toThread = some y) ∧ B.asyncTransaction = T.oneWay
  | _ => True

structure Inv (L : Layout) (s : TxnState) : Prop where
  links : Links s
  parents : Stacks s.contents s
  placed : Placed s.contents
  live : ∀ {t p}, t ∈ s.contents p →
    ∃ T b B, Live L s t T b B ∧ ¬ OnList s.freeing b ∧ AtPlace L B p
  freed : Placed s.freeing
  freeing_lt : ∀ {b}, OnList s.freeing b → b < s.nextBuf
  notUser : ∀ {b B}, OnList s.freeing b → s.buf b = some B → B.allowUserFree = false
  refs : ∀ {a act t}, act ∈ s.frames a → t ∈ act.refs → Settled s.contents s t
  acts : ∀ {a act}, act ∈ s.frames a → ActOk L s.contents s act
  self : ∀ {a act x}, act ∈ s.frames a → act.self = some x → a = .thread x
  alone : ∀ {a act}, act ∈ s.frames a → act.calls = true → s.frames a = [act]
  owners : ∀ {n p}, (s.node n).proc = some p → L.ownerOf n = p

/-! ## Control steps: the data stay -/

/-- Two states with the same transactions, buffers and stacks. -/
structure SameData (s s' : TxnState) : Prop where
  txn : s'.txn = s.txn
  buf : s'.buf = s.buf
  stack : ∀ x, (s'.thread x).transactionStack = (s.thread x).transactionStack
  nextTxn : s'.nextTxn = s.nextTxn
  nextBuf : s'.nextBuf = s.nextBuf

theorem SameData.setFrames (acts : List Act) : SameData s (s.setFrames a acts) :=
  ⟨rfl, rfl, fun _ => rfl, rfl, rfl⟩

theorem Live.of_same (hd : SameData s s') (h : Live L s t T b B) : Live L s' t T b B :=
  { h with txn := by rw [hd.txn]; exact h.txn, buf := by rw [hd.buf]; exact h.buf }

theorem Links.of_same (hd : SameData s s') (h : Links s) : Links s' where
  link hb ht := by rw [hd.buf] at hb; rw [hd.txn]; exact h.link hb ht
  inj ht hu := by rw [hd.txn] at ht hu; exact h.inj ht hu
  toProc ht := by rw [hd.txn] at ht; exact h.toProc ht
  txn_lt ht := by rw [hd.txn] at ht; rw [hd.nextTxn]; exact h.txn_lt ht
  buffer_lt ht := by rw [hd.txn] at ht; rw [hd.nextBuf]; exact h.buffer_lt ht
  buf_lt hb := by rw [hd.buf] at hb; rw [hd.nextBuf]; exact h.buf_lt hb

theorem Settled.mono (hn : s.nextTxn ≤ s'.nextTxn) (hc : OnList c' t → OnList c t)
    (h : Settled c s t) : Settled c' s' t :=
  ⟨h.1.trans_le hn, fun ho => h.2 (hc ho)⟩

/-- What stays of a transaction that a task holds, and of its buffer. -/
def SameTxn (s' : TxnState) (t : TxnId) (T : Transaction) (b : BufId) (B : Buffer) : Prop :=
  s'.buf b = some B ∧ ∃ T', s'.txn t = some T' ∧ T'.buffer = T.buffer ∧
    T'.toThread = T.toThread ∧ T'.toParent = T.toParent ∧ T'.oneWay = T.oneWay

theorem ActOk.mono
    (hcalm : ∀ x, act.calls = true → act.self = some x → Calm c s x → Calm c' s' x)
    (hview : ∀ t T b B, act.holds = some t → s.txn t = some T → T.buffer = some b →
      s.buf b = some B → SameTxn s' t T b B) (h : ActOk L c s act) : ActOk L c' s' act := by
  cases act with
  | send x tp n irt th oneWay =>
    obtain ⟨h₁, h₂, hn, h₃⟩ := h
    exact ⟨h₁, h₂, hn, fun hi => ⟨(h₃ hi).1, fun ho => hcalm x rfl rfl ((h₃ hi).2 ho)⟩⟩
  | build x t irt th =>
    obtain ⟨T, b, B, h₁, h₂, h₃, h₄, hn, h₅⟩ := h
    obtain ⟨hB, T', hT', e₁, e₂, -, e₄⟩ := hview t T b B rfl h₁ h₂ h₃
    exact ⟨T', b, B, hT', e₁.trans h₂, hB, e₂.trans h₄, hn, fun hi => ⟨(h₅ hi).1,
      e₄ ▸ (h₅ hi).2.1, fun ho => hcalm x rfl rfl ((h₅ hi).2.2 (e₄ ▸ ho))⟩⟩
  | procTransaction x t th =>
    obtain ⟨T, b, B, h₁, h₂, h₃, h₄, h₅⟩ := h
    obtain ⟨hB, T', hT', e₁, e₂, -, e₄⟩ := hview t T b B rfl h₁ h₂ h₃
    exact ⟨T', b, B, hT', e₁.trans h₂, hB, fun y hy => e₂.trans (h₄ y hy), e₄ ▸ h₅⟩
  | _ => exact h

theorem ActOk.of_same (hd : SameData s s') (hc : ∀ t, OnList c' t → OnList c t)
    (h : ActOk L c s act) : ActOk L c' s' act := by
  refine h.mono (fun x _ _ hcalm t ht => ?_) fun t T b B _ hT _ hB => ?_
  · exact (hcalm t (by rwa [hd.stack] at ht)).mono hd.nextTxn.ge (hc t)
  · exact ⟨by rwa [hd.buf], T, by rwa [hd.txn], rfl, rfl, rfl, rfl⟩

/-- Fewer contents: what has left all places before has left them after. -/
theorem Stacks.of_same (hd : SameData s s') (hc : ∀ t, OnList c' t → OnList c t)
    (h : Stacks c s) : Stacks c' s' := by
  have key {x : ThreadId} {t : TxnId} (hs : Stackable c s x t) : Stackable c' s' x t := by
    refine ⟨by rw [hd.nextTxn]; exact hs.1, fun T ht hx ho => ?_⟩
    rw [hd.txn] at ht
    exact hs.2 T ht hx (hc t ho)
  constructor
  · intro x t ht
    rw [hd.stack] at ht
    exact key (h.stack ht)
  · intro t T x u ht hx hu
    rw [hd.txn] at ht
    exact key (h.toParent ht hx hu)
  · intro t T u ht hu
    rw [hd.txn] at ht
    exact (h.fromParent ht hu).mono hd.nextTxn.ge (hc u)

/-- What an act of the task `a`, with the acts `acts`, must meet. -/
def Good (L : Layout) (c : Place → List TxnId) (s : TxnState) (a : Actor) (acts : List Act)
    (act : Act) : Prop :=
  (∀ t ∈ act.refs, Settled c s t) ∧ ActOk L c s act ∧ (∀ x, act.self = some x → a = .thread x) ∧
    (act.calls = true → acts = [act])

/-- A step that changes no data. The transactions at a place were at some place before, where the
new one suits them; a buffer that a task starts to free is not the buffer of one of them; the new
acts are good. -/
theorem Inv.control (h : Inv L s) (hd : SameData s s') (hp : Placed s'.contents)
    (hc : ∀ t p, t ∈ s'.contents p → ∃ q, t ∈ s.contents q ∧
      ∀ T b B, Live L s t T b B → AtPlace L B q → AtPlace L B p)
    (hf : Placed s'.freeing)
    (hn : ∀ b, OnList s'.freeing b → OnList s.freeing b ∨
      (∃ B, s.buf b = some B ∧ B.allowUserFree = false) ∧
        ∀ t T B, OnList s'.contents t → ¬ Live L s t T b B)
    (ha : ∀ a act, act ∈ s'.frames a → s'.frames a = s.frames a ∨
      Good L s'.contents s a (s'.frames a) act)
    (ho : ∀ n p, (s'.node n).proc = some p → (s.node n).proc = some p) : Inv L s' := by
  have hon : ∀ t, OnList s'.contents t → OnList s.contents t := by
    rintro t ⟨p, ht⟩
    obtain ⟨q, hq, -⟩ := hc t p ht
    exact ⟨q, hq⟩
  exact
    { links := h.links.of_same hd
      parents := h.parents.of_same hd hon
      placed := hp
      live := by
        intro t p ht
        obtain ⟨q, hq, hat⟩ := hc t p ht
        obtain ⟨T, b, B, hl, hfr, hq⟩ := h.live hq
        refine ⟨T, b, B, hl.of_same hd, fun hb => ?_, hat T b B hl hq⟩
        rcases hn b hb with hb | ⟨-, hb⟩
        · exact hfr hb
        · exact hb t T B ⟨p, ht⟩ hl
      freed := hf
      freeing_lt := by
        intro b hb
        rw [hd.nextBuf]
        rcases hn b hb with hb | ⟨⟨B, hB, -⟩, -⟩
        · exact h.freeing_lt hb
        · exact h.links.buf_lt hB
      notUser := by
        intro b B hb hB
        rw [hd.buf] at hB
        rcases hn b hb with hb | ⟨⟨B', hB', hu⟩, -⟩
        · exact h.notUser hb hB
        · rw [hB] at hB'; cases hB'; exact hu
      refs := by
        intro a act t hact ht
        rcases ha a act hact with hold | ⟨hset, -⟩
        · exact (h.refs (hold ▸ hact) ht).mono hd.nextTxn.ge (hon t)
        · exact (hset t ht).mono hd.nextTxn.ge id
      acts := by
        intro a act hact
        rcases ha a act hact with hold | ⟨-, hok, -⟩
        · exact (h.acts (hold ▸ hact)).of_same hd hon
        · exact hok.of_same hd fun _ => id
      self := by
        intro a act x hact hx
        rcases ha a act hact with hold | ⟨-, -, hself, -⟩
        · exact h.self (hold ▸ hact) hx
        · exact hself x hx
      alone := by
        intro a act hact hcalls
        rcases ha a act hact with hold | ⟨-, -, -, halone⟩
        · rw [hold]; exact h.alone (hold ▸ hact) hcalls
        · exact halone hcalls
      owners := fun hn => h.owners (ho _ _ hn) }

/-- The acts below the next one are not in a call. -/
theorem Inv.rest_calls (h : Inv L s) (hfr : s.frames a = act :: rest) :
    ∀ act ∈ rest, act.calls = false := by
  intro act' hact'
  rw [← Bool.not_eq_true]
  intro hc
  have := h.alone (hfr ▸ List.mem_cons_of_mem act hact') hc
  rw [hfr, List.cons.injEq] at this
  rw [this.2] at hact'
  cases hact'

/-- An act that stays is good. -/
theorem Inv.good (h : Inv L s) (hon : ∀ t, OnList c t → OnList s.contents t)
    (hact : act ∈ s.frames a) (hc : act.calls = false) (acts : List Act) :
    Good L c s a acts act :=
  ⟨fun _ ht => (h.refs hact ht).mono le_rfl (hon _),
    (h.acts hact).of_same ⟨rfl, rfl, fun _ => rfl, rfl, rfl⟩ hon, fun _ hx => h.self hact hx,
    fun hc' => by rw [hc] at hc'; cases hc'⟩

/-- The premise of `Inv.control` on the acts, where `a` goes on with `new` and then `rest`. -/
theorem Inv.good_acts (h : Inv L s) (hon : ∀ t, OnList c t → OnList s.contents t)
    {new : List Act} (hfr : s'.frames = Function.update s.frames a (new ++ rest))
    (hr : ∀ act ∈ rest, act ∈ s.frames a ∧ act.calls = false)
    (hnew : ∀ act ∈ new, Good L c s a (new ++ rest) act) :
    ∀ a' act, act ∈ s'.frames a' → s'.frames a' = s.frames a' ∨
      Good L c s a' (s'.frames a') act := by
  intro a' act hact
  rcases eq_or_ne a' a with rfl | hne
  · rw [hfr, Function.update_self] at hact ⊢
    rcases List.mem_append.mp hact with hact | hact
    · exact .inr (hnew act hact)
    · exact .inr (h.good hon (hr act hact).1 (hr act hact).2 _)
  · rw [hfr, Function.update_of_ne hne]
    exact .inl rfl

/-! ## Data steps: the lists and the tasks stay -/

theorem Links.setTxn {T' : Transaction} (h : Links s) (ht : s.txn t = some T)
    (hb : T'.buffer = T.buffer ∨
      T'.buffer = none ∧ ∀ b B, s.buf b = some B → B.transaction ≠ some t)
    (hp : T'.toProc = none → T'.buffer = none) : Links (s.setTxn t (some T')) where
  link {b B u} hB hu := by
    obtain ⟨U, hU, hUb⟩ := h.link hB hu
    rcases eq_or_ne u t with rfl | hne
    · rw [ht] at hU; cases hU
      rcases hb with hb | ⟨-, hb⟩
      · exact ⟨T', by simp, hb.trans hUb⟩
      · exact absurd hu (hb b B hB)
    · exact ⟨U, by simp [hne, hU], hUb⟩
  inj {u U v V b} hu hv hUb hVb := by
    have key {u : TxnId} {U : Transaction} (hu : (s.setTxn t (some T')).txn u = some U)
        (hUb : U.buffer = some b) : ∃ U', s.txn u = some U' ∧ U'.buffer = some b := by
      rcases eq_or_ne u t with rfl | hne
      · simp only [TxnState.setTxn_txn, Function.update_self, Option.some.injEq] at hu
        subst hu
        rcases hb with hb | ⟨hb, -⟩
        · exact ⟨T, ht, hb ▸ hUb⟩
        · rw [hb] at hUb; cases hUb
      · exact ⟨U, by simpa [hne] using hu, hUb⟩
    obtain ⟨U', hU', hUb'⟩ := key hu hUb
    obtain ⟨V', hV', hVb'⟩ := key hv hVb
    exact h.inj hU' hV' hUb' hVb'
  toProc {u U} hu hU := by
    rcases eq_or_ne u t with rfl | hne
    · simp only [TxnState.setTxn_txn, Function.update_self, Option.some.injEq] at hu
      subst hu; exact hp hU
    · exact h.toProc (by simpa [hne] using hu) hU
  txn_lt {u U} hu := by
    rcases eq_or_ne u t with rfl | hne
    · exact h.txn_lt ht
    · exact h.txn_lt (show s.txn u = some U by simpa [hne] using hu)
  buffer_lt {u U b} hu hU := by
    rcases eq_or_ne u t with rfl | hne
    · simp only [TxnState.setTxn_txn, Function.update_self, Option.some.injEq] at hu
      subst hu
      rcases hb with hb | ⟨hb, -⟩
      · exact h.buffer_lt ht (hb ▸ hU)
      · rw [hb] at hU; cases hU
    · exact h.buffer_lt (show s.txn u = some U by simpa [hne] using hu) hU
  buf_lt := h.buf_lt

/-- A transaction that no buffer points to can be freed. -/
theorem Links.freeTxn (h : Links s) (hn : ∀ b B, s.buf b = some B → B.transaction ≠ some t) :
    Links (s.setTxn t none) := by
  have key {u : TxnId} {U : Transaction} (hu : (s.setTxn t none).txn u = some U) :
      s.txn u = some U := by
    rcases eq_or_ne u t with rfl | hne
    · simp at hu
    · simpa [hne] using hu
  exact
    { link := by
        intro b B u hB hu
        obtain ⟨U, hU, hUb⟩ := h.link hB hu
        have hne : u ≠ t := fun he => hn b B hB (he ▸ hu)
        exact ⟨U, by simp [hne, hU], hUb⟩
      inj := fun hu hv => h.inj (key hu) (key hv)
      toProc := fun hu => h.toProc (key hu)
      txn_lt := fun hu => h.txn_lt (key hu)
      buffer_lt := fun hu => h.buffer_lt (key hu)
      buf_lt := h.buf_lt }

/-- A buffer changes, but points to the same transaction or to none. -/
theorem Links.setBuf {B' : Option Buffer} (h : Links s) (hB : s.buf b = some B)
    (hb : ∀ B₁, B' = some B₁ → B₁.transaction = B.transaction ∨ B₁.transaction = none) :
    Links (s.setBuf b B') where
  link {b' B₁ t} hB₁ ht := by
    rcases eq_or_ne b' b with rfl | hne
    · simp only [TxnState.setBuf_buf, Function.update_self] at hB₁
      rcases hb B₁ hB₁ with h₁ | h₁
      · exact h.link hB (h₁ ▸ ht)
      · rw [h₁] at ht; cases ht
    · exact h.link (by simpa [hne] using hB₁) ht
  inj := h.inj
  toProc := h.toProc
  txn_lt := h.txn_lt
  buffer_lt := h.buffer_lt
  buf_lt {b' B₁} hB₁ := by
    rcases eq_or_ne b' b with rfl | hne
    · exact h.buf_lt hB
    · exact h.buf_lt (show s.buf b' = some B₁ by simpa [hne] using hB₁)

/-- Only the buffer of a transaction points to it. -/
theorem Links.unlinked {B' : Option Buffer} (h : Links s) (hT : s.txn t = some T)
    (hb : T.buffer = some b) (hB' : ∀ B₁, B' = some B₁ → B₁.transaction = none) :
    ∀ b' B₁, (s.setBuf b B').buf b' = some B₁ → B₁.transaction ≠ some t := by
  intro b' B₁ hB₁ ht
  rcases eq_or_ne b' b with rfl | hne
  · simp only [TxnState.setBuf_buf, Function.update_self] at hB₁
    rw [hB' B₁ hB₁] at ht
    cases ht
  · obtain ⟨T', hT', hb'⟩ := h.link (show s.buf b' = some B₁ by simpa [hne] using hB₁) ht
    rw [hT] at hT'; cases hT'
    rw [hb] at hb'; cases hb'
    exact hne rfl

theorem Stacks.setTxn {T' : Transaction} (h : Stacks c s)
    (hx : ∀ x, T'.toThread = some x → (∃ T, s.txn t = some T ∧ T.toThread = some x) ∨ ¬ OnList c t)
    (hp : ∀ x u, T'.toThread = some x → T'.toParent = some u → Stackable c s x u)
    (hf : ∀ u, T'.fromParent = some u → Settled c s u) : Stacks c (s.setTxn t (some T')) := by
  have key {x : ThreadId} {u : TxnId} (hu : Stackable c s x u) :
      Stackable c (s.setTxn t (some T')) x u := by
    refine ⟨hu.1, fun U hU hUx => ?_⟩
    rcases eq_or_ne u t with rfl | hne
    · simp only [TxnState.setTxn_txn, Function.update_self, Option.some.injEq] at hU
      subst hU
      rcases hx x hUx with ⟨T, hT, hTx⟩ | hn
      · exact hu.2 T hT hTx
      · exact hn
    · exact hu.2 U (by simpa [hne] using hU) hUx
  constructor
  · intro x u hu
    exact key (h.stack hu)
  · intro u U x v hu hUx hv
    rcases eq_or_ne u t with rfl | hne
    · simp only [TxnState.setTxn_txn, Function.update_self, Option.some.injEq] at hu
      subst hu
      exact key (hp x v hUx hv)
    · exact key (h.toParent (show s.txn u = some U by simpa [hne] using hu) hUx hv)
  · intro u U v hu hv
    rcases eq_or_ne u t with rfl | hne
    · simp only [TxnState.setTxn_txn, Function.update_self, Option.some.injEq] at hu
      subst hu
      exact hf v hv
    · exact h.fromParent (show s.txn u = some U by simpa [hne] using hu) hv

theorem Stacks.freeTxn (h : Stacks c s) : Stacks c (s.setTxn t none) := by
  have hT {u : TxnId} {U : Transaction} (hu : (s.setTxn t none).txn u = some U) :
      s.txn u = some U := by
    rcases eq_or_ne u t with rfl | hne
    · simp at hu
    · simpa [hne] using hu
  have key {x : ThreadId} {u : TxnId} (hu : Stackable c s x u) :
      Stackable c (s.setTxn t none) x u := ⟨hu.1, fun U hU => hu.2 U (hT hU)⟩
  exact ⟨fun hu => key (h.stack hu), fun hu hx hv => key (h.toParent (hT hu) hx hv),
    fun hu hv => h.fromParent (hT hu) hv⟩

theorem Stacks.setStack {v : Option TxnId} (h : Stacks c s)
    (hv : ∀ t, v = some t → Stackable c s x t) : Stacks c (s.setStack x v) where
  stack {y t} ht := by
    rcases eq_or_ne y x with rfl | hne
    · exact hv t (by simpa using ht)
    · exact h.stack (show (s.thread y).transactionStack = some t by simpa [hne] using ht)
  toParent := h.toParent
  fromParent := h.fromParent

theorem Settled.stackable (h : Settled c s t) : Stackable c s x t := ⟨h.1, fun _ _ _ => h.2⟩

/-- The transaction, which has not reached user space, stays. -/
def Keeps (L : Layout) (s s' : TxnState) (t : TxnId) : Prop :=
  ∀ T b B, Live L s t T b B → SameTxn s' t T b B

theorem Keeps.live {T : Transaction} (hk : Keeps L s s' t) (hl : Live L s t T b B) :
    ∃ T', Live L s' t T' b B := by
  obtain ⟨hB, T', hT', h₁, h₂, h₃, h₄⟩ := hk T b B hl
  exact ⟨T', { hl with
    txn := hT', buffer := h₁.trans hl.buffer, buf := hB, toParent := h₃.trans hl.toParent
    toThread := fun y hy => hl.toThread y (h₂ ▸ hy)
    async := fun ha => ⟨h₄ ▸ (hl.async ha).1, (hl.async ha).2⟩ }⟩

/-- A step that changes data only, and keeps what has not reached user space. -/
theorem Inv.data (h : Inv L s) (htodo : s'.todo = s.todo) (hfr : s'.frames = s.frames)
    (hnode : s'.node = s.node) (hl : Links s') (hs : Stacks s.contents s')
    (hn : s'.nextTxn = s.nextTxn) (hnb : s'.nextBuf = s.nextBuf)
    (hk : ∀ t, OnList s.contents t → Keeps L s s' t)
    (hu : ∀ b B, OnList s.freeing b → s'.buf b = some B → B.allowUserFree = false)
    (hcalm : ∀ a act x, act ∈ s.frames a → act.calls = true → act.self = some x →
      Calm s.contents s x → Calm s.contents s' x) : Inv L s' := by
  have hcont : s'.contents = s.contents := by
    funext p; cases p <;> simp only [TxnState.contents, htodo, hfr]
  have hfree : s'.freeing = s.freeing := by
    funext a; simp only [TxnState.freeing, hfr]
  exact
    { links := hl
      parents := hcont ▸ hs
      placed := hcont ▸ h.placed
      live := by
        intro t p ht
        rw [hcont] at ht
        obtain ⟨T, b, B, hl, hf, hat⟩ := h.live ht
        obtain ⟨T', hl'⟩ := (hk t ⟨p, ht⟩).live hl
        exact ⟨T', b, B, hl', hfree ▸ hf, hat⟩
      freed := hfree ▸ h.freed
      freeing_lt := by
        intro b hb
        rw [hnb]
        exact h.freeing_lt (hfree ▸ hb)
      notUser := by
        intro b B hb hB
        exact hu b B (hfree ▸ hb) hB
      refs := by
        intro a act t hact ht
        rw [hfr] at hact
        exact hcont ▸ (h.refs hact ht).mono hn.ge id
      acts := by
        intro a act hact
        rw [hfr] at hact
        rw [hcont]
        refine (h.acts hact).mono (fun x => hcalm a act x hact) fun t T b B hh hT hb hB => ?_
        have ht : t ∈ s.contents (.actor a) := List.mem_filterMap.mpr ⟨act, hact, hh⟩
        obtain ⟨T₁, b₁, B₁, hl₁, -, -⟩ := h.live ht
        have := hl₁.eq hT hb hB
        exact hk t ⟨_, ht⟩ _ _ _ (by rwa [← this.1, ← this.2.1, ← this.2.2])
      self := by
        intro a act x hact
        rw [hfr] at hact
        exact h.self hact
      alone := by
        intro a act hact
        rw [hfr] at hact ⊢
        exact h.alone hact
      owners := by
        intro n p hnp
        rw [hnode] at hnp
        exact h.owners hnp }

/-- The buffer of a transaction that has reached user space is not the buffer of one that has
not. -/
theorem Inv.not_live_of_buffer (h : Inv L s) (ht : s.txn t = some T) (hb : T.buffer = some b)
    (hn : ¬ OnList s.contents t) (hu : OnList s.contents u) (U : Transaction) (B : Buffer) :
    ¬ Live L s u U b B := fun hl =>
  hn (h.links.inj ht hl.txn hb hl.buffer ▸ hu)

theorem Inv.not_live_of_freeing (h : Inv L s) (hb : OnList s.freeing b) (hu : OnList s.contents u)
    (U : Transaction) (B : Buffer) : ¬ Live L s u U b B := by
  intro hl
  obtain ⟨p, hp⟩ := hu
  obtain ⟨U', b', B', hl', hf, -⟩ := h.live hp
  exact hf ((hl'.eq hl.txn hl.buffer hl.buf).2.1 ▸ hb)

/-- One transaction changes. If it has not reached user space, only its `from` fields do. -/
theorem Inv.setTxn {T' : Transaction} (h : Inv L s) (ht : s.txn t = some T)
    (hb : T'.buffer = T.buffer ∨
      T'.buffer = none ∧ ∀ b B, s.buf b = some B → B.transaction ≠ some t)
    (hp : T'.toProc = none → T'.buffer = none)
    (hk : OnList s.contents t → T'.buffer = T.buffer ∧ T'.toThread = T.toThread ∧
      T'.toParent = T.toParent ∧ T'.oneWay = T.oneWay)
    (hpar : ∀ x v, T'.toThread = some x → T'.toParent = some v → Stackable s.contents s x v)
    (hfrom : ∀ v, T'.fromParent = some v → Settled s.contents s v) :
    Inv L (s.setTxn t (some T')) := by
  refine h.data rfl rfl rfl (h.links.setTxn ht hb hp) (h.parents.setTxn ?_ hpar hfrom) rfl rfl ?_
    (fun b B hfb hB => h.notUser hfb hB) (fun _ _ _ _ _ _ hc => hc)
  · intro x hx
    by_cases ho : OnList s.contents t
    · exact .inl ⟨T, ht, (hk ho).2.1 ▸ hx⟩
    · exact .inr ho
  · intro u hu U b B hl
    refine ⟨hl.buf, ?_⟩
    rcases eq_or_ne u t with rfl | hne
    · have hTU : T = U := by have := hl.txn; rw [ht] at this; exact Option.some.inj this
      subst hTU
      exact ⟨T', by simp, hk hu⟩
    · exact ⟨U, by simpa [hne] using hl.txn, rfl, rfl, rfl, rfl⟩

/-- A transaction that has reached user space, and that no buffer points to, is freed. -/
theorem Inv.freeTxn (h : Inv L s) (ht : ¬ OnList s.contents t)
    (hn : ∀ b B, s.buf b = some B → B.transaction ≠ some t) : Inv L (s.setTxn t none) := by
  refine h.data rfl rfl rfl (h.links.freeTxn hn) h.parents.freeTxn rfl rfl ?_
    (fun b B hfb hB => h.notUser hfb hB) (fun _ _ _ _ _ _ hc => hc)
  intro u hu U b B hl
  have hne : u ≠ t := fun he => ht (he ▸ hu)
  exact ⟨hl.buf, U, by simpa [hne] using hl.txn, rfl, rfl, rfl, rfl⟩

/-- A buffer changes that is not the buffer of a transaction that has not reached user space. -/
theorem Inv.setBuf {B' : Option Buffer} (h : Inv L s) (hB : s.buf b = some B)
    (hb : ∀ B₁, B' = some B₁ → B₁.transaction = B.transaction ∨ B₁.transaction = none)
    (hnl : ∀ u U B, OnList s.contents u → ¬ Live L s u U b B)
    (hu : OnList s.freeing b → ∀ B₁, B' = some B₁ → B₁.allowUserFree = false) :
    Inv L (s.setBuf b B') := by
  have hstacks : Stacks s.contents (s.setBuf b B') :=
    ⟨h.parents.stack, h.parents.toParent, h.parents.fromParent⟩
  refine h.data rfl rfl rfl (h.links.setBuf hB hb) hstacks rfl rfl ?_ ?_ (fun _ _ _ _ _ _ hc => hc)
  · intro u hu U b' B₁ hl
    have hne : b' ≠ b := fun he => hnl u U B₁ hu (he ▸ hl)
    exact ⟨by simpa [hne] using hl.buf, U, hl.txn, rfl, rfl, rfl, rfl⟩
  · intro b' B₁ hfb hB₁
    rcases eq_or_ne b' b with rfl | hne
    · exact hu hfb B₁ (by simpa using hB₁)
    · exact h.notUser hfb (by simpa [hne] using hB₁)

theorem Inv.unlink (h : Inv L s) (hs : s.unlink b = some s')
    (hnl : ∀ u U B, OnList s.contents u → ¬ Live L s u U b B) : Inv L s' := by
  obtain ⟨B, hB, he⟩ := Option.bind_eq_some_iff.mp hs
  cases he
  refine h.setBuf hB (by rintro _ ⟨⟩; exact .inr rfl) hnl ?_
  rintro hfb _ ⟨⟩
  exact h.notUser (B := B) hfb hB

/-- The stack of `x` changes. -/
theorem Inv.setStack {v : Option TxnId} (h : Inv L s)
    (hv : ∀ t, v = some t → Stackable s.contents s x t)
    (hcalm : ∀ a act, act ∈ s.frames a → act.calls = true → act.self = some x →
      ∀ t, v = some t → Settled s.contents s t) : Inv L (s.setStack x v) := by
  refine h.data rfl rfl rfl ⟨h.links.link, h.links.inj, h.links.toProc, h.links.txn_lt,
    h.links.buffer_lt, h.links.buf_lt⟩ (h.parents.setStack hv) rfl rfl
    (fun u _ U b B hl => ⟨hl.buf, U, hl.txn, rfl, rfl, rfl, rfl⟩)
    (fun b B hfb hB => h.notUser hfb hB) ?_
  intro a act y hact hcalls hself hc t ht
  rcases eq_or_ne y x with rfl | hne
  · exact hcalm a act hact hcalls hself t (by simpa using ht)
  · exact hc t (by simpa [hne] using ht)

theorem pop_eq (h : s.pop y t = some s') : ∃ T, s.txn t = some T ∧
    (s.thread y).transactionStack = some t ∧ T.fromThread = some y ∧
    s' = (s.setTxn t (some { T with fromThread := none })).setStack y T.fromParent := by
  simp only [TxnState.pop, bind, Option.bind_eq_some_iff, Option.guard_eq_some', exists_const,
    Option.some.injEq] at h
  obtain ⟨T, hT, hst, hf, rfl⟩ := h
  exact ⟨T, hT, hst, hf, rfl⟩

theorem Inv.pop (h : Inv L s) (hp : s.pop y t = some s') : Inv L s' := by
  obtain ⟨T, hT, -, -, rfl⟩ := pop_eq hp
  have hpar : ∀ x v, T.toThread = some x → T.toParent = some v → Stackable s.contents s x v :=
    fun _ _ hx hv => h.parents.toParent hT hx hv
  have hset : ∀ u, T.fromParent = some u → Settled s.contents s u :=
    fun u hu => h.parents.fromParent hT hu
  have hproc : T.toProc = none → T.buffer = none := h.links.toProc hT
  let s₁ := s.setTxn t (some { T with fromThread := none })
  have h₁ : Inv L s₁ := h.setTxn hT (.inl rfl) hproc (fun _ => ⟨rfl, rfl, rfl, rfl⟩) hpar hset
  have hset₁ : ∀ u, T.fromParent = some u → Settled s₁.contents s₁ u := hset
  exact h₁.setStack (fun u hu => (hset₁ u hu).stackable) fun _ _ _ _ _ u hu => hset₁ u hu

/-! ## The next act of a task -/

theorem filterMap_cons_eq {α β : Type} (f : α → Option β) (x : α) (l : List α) :
    (x :: l).filterMap f = (f x).toList ++ l.filterMap f := by
  cases h : f x <;> simp [h]

/-- `act'` is one of the acts `new` that come in the place of `act`. What it refers to has reached
user space before, or leaves its place in this step (`gone`). -/
def Fits (L : Layout) (s : TxnState) (act : Act) (new : List Act) (gone : TxnId → Prop)
    (act' : Act) : Prop :=
  (∀ t ∈ act'.refs, Settled s.contents s t ∨ gone t) ∧ ActOk L s.contents s act' ∧
    (∀ x, act'.self = some x → act.self = some x) ∧
    (act'.calls = true → act.calls = true ∧ new = [act'])

theorem contents_actor (hfr : s.frames a = act :: rest) :
    s.contents (.actor a) = act.holds.toList ++ rest.filterMap Act.holds := by
  simp only [TxnState.contents, hfr, filterMap_cons_eq]

theorem freeing_actor (hfr : s.frames a = act :: rest) :
    s.freeing a = act.frees.toList ++ rest.filterMap Act.frees := by
  simp only [TxnState.freeing, hfr, filterMap_cons_eq]

section Next

variable {new : List Act} {gone : TxnId → Prop} (h : Inv L s) (hfr : s.frames a = act :: rest)
include h hfr

/-- The transaction that the task holds is at no other place. -/
theorem Inv.holds_not_rest (ht : act.holds = some t) : t ∉ rest.filterMap Act.holds := by
  have := h.placed.nodup (.actor a)
  rw [contents_actor hfr, ht] at this
  exact (List.nodup_cons.mp this).1

/-- The task `a` goes on with `new` and then `rest`, which is a part of what it had to do before;
no data change. A transaction at a place was there before, or was at another place and suits this
one. -/
theorem Inv.step {rest' : List Act} (hd : SameData s s')
    (hfr' : s'.frames = Function.update s.frames a (new ++ rest')) (hrest : rest'.Sublist rest)
    (hnode : ∀ n p, (s'.node n).proc = some p → (s.node n).proc = some p)
    (hp : Placed s'.contents)
    (hc : ∀ u p, u ∈ s'.contents p → u ∈ s.contents p ∨
      OnList s.contents u ∧ ∀ T b B, Live L s u T b B → AtPlace L B p)
    (hff : (new.filterMap Act.frees).Sublist act.frees.toList)
    (hgone : ∀ u, gone u → OnList s.contents u ∧ ¬ OnList s'.contents u)
    (hnew : ∀ act' ∈ new, Fits L s act new gone act') : Inv L s' := by
  have hact : act ∈ s.frames a := hfr ▸ List.mem_cons_self
  have hon : ∀ u, OnList s'.contents u → OnList s.contents u := by
    rintro u ⟨p, hu⟩
    rcases hc u p hu with hu | ⟨hu, -⟩
    · exact ⟨p, hu⟩
    · exact hu
  have hsub : ((new ++ rest').filterMap Act.frees).Sublist (s.freeing a) := by
    rw [freeing_actor hfr, List.filterMap_append]
    exact hff.append (hrest.filterMap _)
  have hfree : s'.freeing = Function.update s.freeing a ((new ++ rest').filterMap Act.frees) := by
    rw [← TxnState.freeing_setFrames]
    funext a'; simp only [TxnState.freeing, hfr', TxnState.setFrames_frames]
  refine h.control hd hp ?_ ?_ ?_ (h.good_acts hon hfr' ?_ fun act' hact' => ?_) hnode
  · intro u p hu
    rcases hc u p hu with hu | ⟨⟨q, hq⟩, hat⟩
    · exact ⟨p, hu, fun _ _ _ _ => id⟩
    · exact ⟨q, hq, fun T b B hl _ => hat T b B hl⟩
  · rw [hfree]; exact h.freed.shrink hsub
  · rintro b ⟨a', hb⟩
    refine .inl ⟨a', ?_⟩
    rw [hfree] at hb
    rcases eq_or_ne a' a with rfl | hne
    · rw [Function.update_self] at hb; exact hsub.subset hb
    · rwa [Function.update_of_ne hne] at hb
  · intro act' hact'
    have hact' := hrest.subset hact'
    exact ⟨hfr ▸ List.mem_cons_of_mem act hact', h.rest_calls hfr act' hact'⟩
  · obtain ⟨hrefs, hok, hself, hcalls⟩ := hnew act' hact'
    refine ⟨fun u hu => ?_, hok.of_same ⟨rfl, rfl, fun _ => rfl, rfl, rfl⟩ hon,
      fun x hx => h.self hact (hself x hx), fun hc => ?_⟩
    · rcases hrefs u hu with hs | hu
      · exact hs.mono le_rfl (hon u)
      · obtain ⟨⟨p, hp⟩, hn⟩ := hgone u hu
        obtain ⟨T, b, B, hl, -⟩ := h.live hp
        exact ⟨h.links.txn_lt hl.txn, hn⟩
    · obtain ⟨hc, rfl⟩ := hcalls hc
      have := h.alone hact hc
      rw [hfr, List.cons.injEq] at this
      rw [this.2] at hrest
      rw [List.sublist_nil.mp hrest, List.append_nil]

/-- The task `a` goes on with `new`; the transactions on the work lists stay, and the transaction
that the task holds may leave its place. -/
theorem Inv.next (new : List Act) {rest' : List Act} (hd : SameData s s')
    (htodo : ∀ l, (s'.todo l).filterMap Work.txn? = (s.todo l).filterMap Work.txn?)
    (hfr' : s'.frames = Function.update s.frames a (new ++ rest')) (hrest : rest'.Sublist rest)
    (hnode : ∀ n p, (s'.node n).proc = some p → (s.node n).proc = some p)
    (hh : (new.filterMap Act.holds).Sublist act.holds.toList)
    (hff : (new.filterMap Act.frees).Sublist act.frees.toList)
    (hnew : ∀ act' ∈ new, Fits L s act new
      (fun t => act.holds = some t ∧ new.filterMap Act.holds = []) act') : Inv L s' := by
  have hcont : s'.contents =
      Function.update s.contents (.actor a) ((new ++ rest').filterMap Act.holds) := by
    rw [← TxnState.contents_setFrames]
    funext p
    rcases p with l | a'
    · exact htodo l
    · simp only [TxnState.contents, hfr', TxnState.setFrames_frames]
  have hsub : ((new ++ rest').filterMap Act.holds).Sublist (s.contents (.actor a)) := by
    rw [contents_actor hfr, List.filterMap_append]
    exact hh.append (hrest.filterMap _)
  refine h.step hfr hd hfr' hrest hnode (hcont ▸ h.placed.shrink hsub) ?_ hff ?_ hnew
  · intro u p hu
    rw [hcont] at hu
    rcases eq_or_ne p (.actor a) with rfl | hne
    · rw [Function.update_self] at hu; exact .inl (hsub.subset hu)
    · rw [Function.update_of_ne hne] at hu; exact .inl hu
  · rintro u ⟨hu, hn⟩
    have hmem : u ∈ s.contents (.actor a) := by
      rw [contents_actor hfr, hu]; exact List.mem_cons_self
    refine ⟨⟨_, hmem⟩, hcont ▸ h.placed.not_onList hmem ?_⟩
    rw [List.filterMap_append, hn]
    exact fun hr => h.holds_not_rest hfr hu ((hrest.filterMap _).subset hr)

/-- The task `a` goes on with `new`, and nothing else changes. -/
theorem Inv.setFrames (new : List Act) (hh : (new.filterMap Act.holds).Sublist act.holds.toList)
    (hff : (new.filterMap Act.frees).Sublist act.frees.toList)
    (hnew : ∀ act' ∈ new, Fits L s act new
      (fun t => act.holds = some t ∧ new.filterMap Act.holds = []) act') :
    Inv L (s.setFrames a (new ++ rest)) :=
  h.next hfr new (.setFrames _) (fun _ => rfl) rfl (.refl _) (fun _ _ => id) hh hff hnew

end Next

end Redroid.Binder.Txn
