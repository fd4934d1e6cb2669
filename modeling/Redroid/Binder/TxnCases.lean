import Redroid.Binder.TxnStep

/-!
# What a step of a task can do

* `ActStep`: one rule for each way that a critical section can go. `execAct_cases`: every step of a
  task is by one of the rules.
* `procTransaction_cases`: the list that `binder_proc_transaction` puts a transaction on.
-/

namespace Redroid.Binder.Txn

/-- The steps of the task `a`, which goes on with `rest` afterwards. -/
inductive ActStep (L : Layout) (s : TxnState) (a : Actor) (rest : List Act) (env : Env) :
    Act → TxnState → Prop
  | checkFail {x tp n oneWay} : ActStep L s a rest env (.check x tp n oneWay) (s.setFrames a rest)
  | checkOneWay {x tp n} : L.procOf x ≠ tp → ActStep L s a rest env (.check x tp n true)
      (s.setFrames a (.send x tp (some n) none none true :: rest))
  | checkFirst {x tp n} : L.procOf x ≠ tp →
      (∀ t, (s.todo (.thread x)).head? ≠ some (.transaction t)) →
      (s.thread x).transactionStack = none →
      ActStep L s a rest env (.check x tp n false)
        (s.setFrames a (.send x tp (some n) none none false :: rest))
  | checkNested {x tp n tmp T th} : L.procOf x ≠ tp →
      (∀ t, (s.todo (.thread x)).head? ≠ some (.transaction t)) →
      (s.thread x).transactionStack = some tmp → s.txn tmp = some T → T.toThread = some x →
      s.findThread L tp env.fuel (some tmp) = some th →
      ActStep L s a rest env (.check x tp n false)
        (s.setFrames a (.send x tp (some n) none th false :: rest))
  | replyDead {x irt oneWay T} : s.txn irt = some T → T.fromThread = none →
      ActStep L s a rest env (.replyTarget x irt oneWay) (s.setFrames a (.sendFailedReply irt :: rest))
  | replyBad {x irt oneWay T y} : s.txn irt = some T → T.fromThread = some y →
      (s.thread y).transactionStack ≠ some irt →
      ActStep L s a rest env (.replyTarget x irt oneWay) (s.setFrames a rest)
  | replyTo {x irt oneWay T y} : s.txn irt = some T → T.fromThread = some y →
      (s.thread y).transactionStack = some irt →
      ActStep L s a rest env (.replyTarget x irt oneWay)
        (s.setFrames a (.send x (L.procOf y) none (some irt) (some y) oneWay :: rest))
  | sendFail {x tp n irt th oneWay} : ActStep L s a rest env (.send x tp n irt th oneWay)
      (s.setFrames a (TxnState.onError irt ++ rest))
  | sendAlloc {x tp n irt th oneWay} : ActStep L s a rest env (.send x tp n irt th oneWay)
      ((s.allocTxn x tp n irt th oneWay).setFrames a (.build x s.nextTxn irt th :: rest))
  | buildFail {x t irt th} : ActStep L s a rest env (.build x t irt th)
      (s.setFrames a (.unwind t irt :: rest))
  | buildReply {x t r y s₁} : (s.thread y).isDead = false → s.pop y r = some s₁ →
      ActStep L s a rest env (.build x t (some r) (some y))
        ((s₁.enqueueThread y (.transaction t)).setFrames a (.freeTransaction r :: rest))
  | buildOneWay {x t th T} : s.txn t = some T → T.oneWay = true →
      ActStep L s a rest env (.build x t none th)
        (s.setFrames a (.procTransaction x t none :: rest))
  | buildCall {x t th T} : s.txn t = some T → T.oneWay = false →
      ActStep L s a rest env (.build x t none th)
        (((s.setTxn t (some { T with fromParent := (s.thread x).transactionStack })).setStack x
          (some t)).setFrames a (.procTransaction x t th :: rest))
  | accepted {x t th T b B n s₁} : s.txn t = some T → T.buffer = some b → s.buf b = some B →
      B.targetNode = some n → s.binderProcTransaction t T.oneWay n B.proc th = some (true, s₁) →
      ActStep L s a rest env (.procTransaction x t th) (s₁.setFrames a rest)
  | rejected {x t th T b B n s₁} : s.txn t = some T → T.buffer = some b → s.buf b = some B →
      B.targetNode = some n → s.binderProcTransaction t T.oneWay n B.proc th = some (false, s₁) →
      ActStep L s a rest env (.procTransaction x t th) (s₁.setFrames a
        ((if T.oneWay then [] else [.popTransaction x t]) ++ .unwind t none :: rest))
  | pop {x t s₁} : s.pop x t = some s₁ →
      ActStep L s a rest env (.popTransaction x t) (s₁.setFrames a rest)
  | unwind {t irt T b} : s.txn t = some T → T.buffer = some b →
      ActStep L s a rest env (.unwind t irt)
        (((s.setBuf b none).setTxn t none).setFrames a (TxnState.onError irt ++ rest))
  | failedReply {t T y s₁} : s.txn t = some T → T.fromThread = some y → s.pop y t = some s₁ →
      ActStep L s a rest env (.sendFailedReply t)
        ((if env.ok then s₁.enqueueThread y (.other .returnError) else s₁).setFrames a
          (.freeTransaction t :: rest))
  | failedParent {t T} : s.txn t = some T → T.fromThread = none →
      ActStep L s a rest env (.sendFailedReply t)
        (s.setFrames a (.freeTransaction t :: (TxnState.onError T.fromParent ++ rest)))
  | freeLinked {t T p b s₁} : s.txn t = some T → T.toProc = some p → T.buffer = some b →
      s.unlink b = some s₁ →
      ActStep L s a rest env (.freeTransaction t) ((s₁.setTxn t none).setFrames a rest)
  | freeUnlinked {t T} : s.txn t = some T → (T.toProc = none ∨ T.buffer = none) →
      ActStep L s a rest env (.freeTransaction t) ((s.setTxn t none).setFrames a rest)
  | cleanupCall {t T b B} : s.txn t = some T → T.buffer = some b → s.buf b = some B →
      B.targetNode.isSome → T.oneWay = false →
      ActStep L s a rest env (.cleanupTransaction t) (s.setFrames a (.sendFailedReply t :: rest))
  | cleanupOther {t T b B} : s.txn t = some T → T.buffer = some b → s.buf b = some B →
      (B.targetNode = none ∨ T.oneWay = true) →
      ActStep L s a rest env (.cleanupTransaction t) (s.setFrames a (.freeTransaction t :: rest))
  | freeBuf {b B} : s.buf b = some B → B.transaction = none →
      ActStep L s a rest env (.freeBuf b) (s.setFrames a (.freeBufAsync b :: rest))
  | freeBufLinked {b B t T} : s.buf b = some B → B.transaction = some t → s.txn t = some T →
      ActStep L s a rest env (.freeBuf b)
        (((s.setTxn t (some { T with buffer := none })).setBuf b
          (some { B with transaction := none })).setFrames a (.freeBufAsync b :: rest))
  | asyncLast {b B n} : s.buf b = some B → B.asyncTransaction = true → B.targetNode = some n →
      s.todo (.node n) = [] →
      ActStep L s a rest env (.freeBufAsync b)
        ((s.setNode n { s.node n with hasAsyncTransaction := false }).setFrames a
          (.freeBufRelease b :: rest))
  | asyncNext {b B n w ws} : s.buf b = some B → B.asyncTransaction = true → B.targetNode = some n →
      (s.node n).hasAsyncTransaction = true → s.todo (.node n) = w :: ws →
      ActStep L s a rest env (.freeBufAsync b)
        ((((s.setTodo (.node n) ws).enqueue (.proc B.proc) w).selectThread B.proc).2.setFrames a
          (.freeBufRelease b :: rest))
  | asyncNot {b B} : s.buf b = some B → (B.asyncTransaction = false ∨ B.targetNode = none) →
      ActStep L s a rest env (.freeBufAsync b) (s.setFrames a (.freeBufRelease b :: rest))
  | freeBufRelease {b B} : s.buf b = some B → B.transaction = none →
      ActStep L s a rest env (.freeBufRelease b) ((s.setBuf b none).setFrames a rest)
  | readRetry {x procWork} : (procWork = true → (s.thread x).transactionStack = none ∧
      s.todo (.thread x) = []) →
      ActStep L s a rest env (.readRetry x) (s.setFrames a (.wait x procWork :: rest))
  | woken {x procWork} :
      ActStep L s a rest env (.wait x procWork) (s.setFrames a (.read x procWork :: rest))
  | noWait {x procWork} : ActStep L s a rest env (.wait x procWork) (s.setFrames a rest)
  | waitProc {x} : (s.thread x).processTodo = false →
      ActStep L s a rest env (.wait x true)
        ((s.setWaiting (L.procOf x) (x :: s.waitingThreads (L.procOf x))).setFrames a
          (.sleep x true :: rest))
  | waitThread {x} : (s.thread x).processTodo = false →
      ActStep L s a rest env (.wait x false) (s.setFrames a (.sleep x false :: rest))
  | wake {x procWork g} : (g = [.wait x procWork] ∨ g = []) →
      ActStep L s a rest env (.sleep x procWork)
        ((s.setWaiting (L.procOf x) ((s.waitingThreads (L.procOf x)).filter (· ≠ x))).setFrames a
          (g ++ rest))
  | readNothing {x procWork g} : (g = [.readRetry x] ∨ g = []) →
      ActStep L s a rest env (.read x procWork) (s.setFrames a (g ++ rest))
  | readOther {x procWork l type ws g} : l = .thread x ∨ l = .proc (L.procOf x) ∧
        procWork = true ∧ s.todo (.thread x) = [] →
      s.todo l = .other type :: ws → (g = [.read x procWork] ∨ g = []) →
      ActStep L s a rest env (.read x procWork)
        (((s.setTodo l ws).setThread x { s.thread x with processTodo := (s.thread x).processTodo &&
          !((s.setTodo l ws).todo (.thread x)).isEmpty }).setFrames a (g ++ rest))
  | readTransaction {x procWork l t ws} : l = .thread x ∨ l = .proc (L.procOf x) ∧
        procWork = true ∧ s.todo (.thread x) = [] →
      s.todo l = .transaction t :: ws →
      ActStep L s a rest env (.read x procWork)
        (((s.setTodo l ws).setThread x { s.thread x with processTodo := (s.thread x).processTodo &&
          !((s.setTodo l ws).todo (.thread x)).isEmpty }).setFrames a
          (.deliver x t :: .read x procWork :: rest))
  | deliver {x t} : ActStep L s a rest env (.deliver x t) (s.setFrames a [.copy x t])
  | deliverFail {x t T b B} : s.txn t = some T → T.buffer = some b → s.buf b = some B →
      ActStep L s a rest env (.deliver x t)
        ((s.setBuf b (some { B with transaction := none })).setFrames a
          (.cleanupTransaction t :: .freeBuf b :: if B.targetNode.isNone then [] else rest))
  | copy {x t T b B} : s.txn t = some T → T.buffer = some b → s.buf b = some B →
      ActStep L s a rest env (.copy x t)
        ((s.setBuf b (some { B with allowUserFree := true })).setFrames a
          (.delivered x t B.targetNode.isNone :: rest))
  | copyFail {x t} : env.ok = false →
      ActStep L s a rest env (.copy x t) (s.setFrames a (.cleanupTransaction t :: rest))
  | deliveredCall {x t T} : s.txn t = some T → T.oneWay = false →
      ActStep L s a rest env (.delivered x t false)
        (((s.setTxn t (some { T with toParent := (s.thread x).transactionStack
                                     toThread := some x })).setStack x (some t)).setFrames a rest)
  | deliveredOther {x t isReply T} : s.txn t = some T → (isReply = true ∨ T.oneWay = true) →
      ActStep L s a rest env (.delivered x t isReply) (s.setFrames a (.freeTransaction t :: rest))
  | releaseDone {l} : s.todo l = [] → ActStep L s a rest env (.releaseWork l) (s.setFrames a rest)
  | releaseTransaction {l t ws} : s.todo l = .transaction t :: ws →
      ActStep L s a rest env (.releaseWork l)
        ((s.setTodo l ws).setFrames a (.cleanupTransaction t :: .releaseWork l :: rest))
  | releaseOther {l type ws} : s.todo l = .other type :: ws →
      ActStep L s a rest env (.releaseWork l) ((s.setTodo l ws).setFrames a (.releaseWork l :: rest))
  | nodeRelease {n} : ActStep L s a rest env (.nodeRelease n)
      ((s.setNode n { s.node n with proc := none }).setFrames a rest)

variable {L : Layout} {s s' : TxnState} {t u : TxnId} {b : BufId} {x y : ThreadId}
  {T : Transaction} {B : Buffer} {a : Actor} {act : Act} {rest g : List Act} {env : Env}
  {l : WorkList} {ws : List Work}

theorem execAct_check {tp : ProcId} {n : NodeId} {oneWay : Bool}
    (he : s.execAct L a rest env (.check x tp n oneWay) = some s') :
    ActStep L s a rest env (.check x tp n oneWay) s' := by
  simp only [TxnState.execAct] at he
  split at he
  · cases he; exact .checkFail
  rename_i hne
  have hne : L.procOf x ≠ tp := by simp at hne; exact hne.1
  split at he
  · rename_i how
    cases he
    subst how
    exact .checkOneWay hne
  rename_i how
  rw [Bool.not_eq_true] at how
  subst how
  split at he
  · cases he; exact .checkFail
  rename_i hhead
  split at he
  · rename_i hst
    cases he
    exact .checkFirst hne hhead hst
  · rename_i tmp hst
    simp only [bind, Option.bind_eq_some_iff] at he
    obtain ⟨T, hT, he⟩ := he
    split at he
    · cases he; exact .checkFail
    · rename_i hx
      obtain ⟨th, hth, he⟩ := Option.bind_eq_some_iff.mp he
      cases he
      exact .checkNested hne hhead hst hT (by simpa using hx) hth

theorem execAct_replyTarget {irt : TxnId} {oneWay : Bool}
    (he : s.execAct L a rest env (.replyTarget x irt oneWay) = some s') :
    ActStep L s a rest env (.replyTarget x irt oneWay) s' := by
  simp only [TxnState.execAct, bind, Option.bind_eq_some_iff] at he
  obtain ⟨T, hT, he⟩ := he
  split at he
  · cases he; exact .replyDead hT ‹_›
  · split at he
    · cases he; exact .replyBad hT ‹_› ‹_›
    · rename_i hst
      cases he
      exact .replyTo hT ‹_› (not_not.mp hst)

theorem execAct_build {irt : Option TxnId} {th : Option ThreadId}
    (he : s.execAct L a rest env (.build x t irt th) = some s') :
    ActStep L s a rest env (.build x t irt th) s' := by
  simp only [TxnState.execAct, bind, Option.bind_eq_some_iff] at he
  obtain ⟨T, hT, he⟩ := he
  split at he
  · cases he; exact .buildFail
  split at he
  · split at he
    · cases he; exact .buildFail
    · rename_i hd
      obtain ⟨s₁, hpop, he⟩ := Option.bind_eq_some_iff.mp he
      cases he
      exact .buildReply (by simpa using hd) hpop
  · cases he
  · split at he
    · cases he; exact .buildOneWay hT ‹_›
    · rename_i how
      cases he
      exact .buildCall hT (by simpa using how)

theorem execAct_procTransaction {th : Option ThreadId}
    (he : s.execAct L a rest env (.procTransaction x t th) = some s') :
    ActStep L s a rest env (.procTransaction x t th) s' := by
  simp only [TxnState.execAct, bind, Option.bind_eq_some_iff] at he
  obtain ⟨T, hT, b, hb, B, hB, n, hn, ⟨ok, s₁⟩, hpt, he⟩ := he
  cases ok with
  | true => cases he; exact .accepted hT hb hB hn hpt
  | false =>
    have hr : ActStep L s a rest env (.procTransaction x t th) _ := .rejected hT hb hB hn hpt
    simp only at he
    split at he <;> cases he <;> rename_i how
    · simpa [how] using hr
    · simpa [how] using hr

theorem execAct_sendFailedReply (he : s.execAct L a rest env (.sendFailedReply t) = some s') :
    ActStep L s a rest env (.sendFailedReply t) s' := by
  simp only [TxnState.execAct, bind, Option.bind_eq_some_iff] at he
  obtain ⟨T, hT, he⟩ := he
  split at he
  · obtain ⟨s₁, hpop, he⟩ := Option.bind_eq_some_iff.mp he
    cases he
    exact .failedReply hT ‹_› hpop
  · cases he; exact .failedParent hT ‹_›

theorem execAct_freeTransaction (he : s.execAct L a rest env (.freeTransaction t) = some s') :
    ActStep L s a rest env (.freeTransaction t) s' := by
  simp only [TxnState.execAct, bind, Option.bind_eq_some_iff] at he
  obtain ⟨T, hT, he⟩ := he
  split at he
  · obtain ⟨s₁, hs₁, he⟩ := Option.bind_eq_some_iff.mp he
    cases he
    exact .freeLinked hT ‹_› ‹_› hs₁
  · rename_i hno
    cases he
    refine .freeUnlinked hT ?_
    cases hp : T.toProc with
    | none => exact .inl rfl
    | some p =>
      cases hb : T.buffer with
      | none => exact .inr rfl
      | some b => exact (hno p b hp hb).elim

theorem execAct_cleanupTransaction (he : s.execAct L a rest env (.cleanupTransaction t) = some s') :
    ActStep L s a rest env (.cleanupTransaction t) s' := by
  simp only [TxnState.execAct, bind, Option.bind_eq_some_iff] at he
  obtain ⟨T, hT, b, hb, B, hB, he⟩ := he
  split at he
  · rename_i hc
    cases he
    rw [Bool.and_eq_true] at hc
    exact .cleanupCall hT hb hB hc.1 (by simpa using hc.2)
  · rename_i hc
    cases he
    refine .cleanupOther hT hb hB ?_
    rw [Bool.and_eq_true, not_and_or] at hc
    simpa using hc

theorem execAct_freeBuf (he : s.execAct L a rest env (.freeBuf b) = some s') :
    ActStep L s a rest env (.freeBuf b) s' := by
  simp only [TxnState.execAct, bind, Option.bind_eq_some_iff] at he
  obtain ⟨B, hB, he⟩ := he
  split at he
  · cases he; exact .freeBuf hB ‹_›
  · obtain ⟨T, hT, he⟩ := Option.bind_eq_some_iff.mp he
    obtain ⟨s₁, hs₁, he⟩ := Option.bind_eq_some_iff.mp he
    obtain ⟨B', hB', hs₁⟩ := Option.bind_eq_some_iff.mp hs₁
    rw [TxnState.setTxn_buf, hB] at hB'
    cases hB'
    cases hs₁
    cases he
    exact .freeBufLinked hB ‹_› hT

theorem execAct_freeBufAsync (he : s.execAct L a rest env (.freeBufAsync b) = some s') :
    ActStep L s a rest env (.freeBufAsync b) s' := by
  simp only [TxnState.execAct, bind, Option.bind_eq_some_iff] at he
  obtain ⟨B, hB, he⟩ := he
  split at he
  · simp only [Option.bind_eq_some_iff, Option.guard_eq_some', exists_const] at he
    obtain ⟨hasync, -, he⟩ := he
    split at he
    · cases he; exact .asyncLast hB ‹_› ‹_› ‹_›
    · cases he; exact .asyncNext hB ‹_› ‹_› hasync ‹_›
  · rename_i hno
    cases he
    refine .asyncNot hB ?_
    cases ha : B.asyncTransaction with
    | false => exact .inl rfl
    | true =>
      cases hn : B.targetNode with
      | none => exact .inr rfl
      | some n => exact (hno n ha hn).elim

theorem execAct_wait {procWork : Bool} (he : s.execAct L a rest env (.wait x procWork) = some s') :
    ActStep L s a rest env (.wait x procWork) s' := by
  simp only [TxnState.execAct] at he
  split at he
  · cases he; exact .woken
  rename_i hno
  have htodo : (s.thread x).processTodo = false := by simp at hno; exact hno.1.1
  split at he
  · cases he; exact .noWait
  · cases procWork with
    | true => cases he; exact .waitProc htodo
    | false => cases he; exact .waitThread htodo

theorem execAct_sleep {procWork : Bool} (he : s.execAct L a rest env (.sleep x procWork) = some s') :
    ActStep L s a rest env (.sleep x procWork) s' := by
  simp only [TxnState.execAct] at he
  cases he
  have hw : ActStep L s a rest env (.sleep x procWork) _ :=
    .wake (g := if env.ok then [.wait x procWork] else []) (by split <;> simp)
  split at hw <;> rename_i hok
  · simpa [hok] using hw
  · simpa [hok] using hw

theorem execAct_read {procWork : Bool} (he : s.execAct L a rest env (.read x procWork) = some s') :
    ActStep L s a rest env (.read x procWork) s' := by
  have hnothing : ActStep L s a rest env (.read x procWork)
      (s.setFrames a (if env.retry then .readRetry x :: rest else rest)) := by
    have hn : ActStep L s a rest env (.read x procWork) _ :=
      .readNothing (g := if env.retry then [.readRetry x] else []) (by split <;> simp)
    split at hn <;> rename_i hr
    · simpa [hr] using hn
    · simpa [hr] using hn
  simp only [TxnState.execAct] at he
  obtain ⟨l, hl⟩ : ∃ l : WorkList,
    l = if (s.todo (.thread x)).isEmpty then .proc (L.procOf x) else .thread x := ⟨_, rfl⟩
  rw [← hl] at he
  split at he
  · cases he; exact hnothing
  rename_i w ws htodo
  split at he
  · cases he; exact hnothing
  rename_i hpw
  split at he
  · cases he
    exact .readNothing (g := []) (.inr rfl)
  have hwhere : l = .thread x ∨ l = .proc (L.procOf x) ∧ procWork = true ∧
      s.todo (.thread x) = [] := by
    split at hl
    · rename_i hemp
      refine .inr ⟨hl, ?_, by simpa using hemp⟩
      cases procWork with
      | true => rfl
      | false => simp [hl] at hpw
    · exact .inl hl
  split at he
  · cases he; exact .readTransaction hwhere htodo
  · cases he
    have ho : ActStep L s a rest env (.read x procWork) _ :=
      .readOther (g := if env.ok then [.read x procWork] else []) hwhere htodo
        (by split <;> simp)
    split at ho <;> rename_i hok
    · simpa [hok] using ho
    · simpa [hok] using ho

theorem execAct_deliver (he : s.execAct L a rest env (.deliver x t) = some s') :
    ActStep L s a rest env (.deliver x t) s' := by
  simp only [TxnState.execAct, bind, Option.bind_eq_some_iff] at he
  obtain ⟨T, hT, b, hb, B, hB, he⟩ := he
  split at he
  · cases he; exact .deliver
  · obtain ⟨s₁, hs₁, he⟩ := Option.bind_eq_some_iff.mp he
    obtain ⟨B', hB', hs₁⟩ := Option.bind_eq_some_iff.mp hs₁
    rw [hB] at hB'
    cases hB'
    cases hs₁
    cases he
    exact .deliverFail hT hb hB

theorem execAct_copy (he : s.execAct L a rest env (.copy x t) = some s') :
    ActStep L s a rest env (.copy x t) s' := by
  simp only [TxnState.execAct, bind, Option.bind_eq_some_iff] at he
  obtain ⟨T, hT, b, hb, B, hB, he⟩ := he
  split at he
  · cases he; exact .copy hT hb hB
  · rename_i hok
    cases he
    exact .copyFail (by simpa using hok)

theorem execAct_delivered {isReply : Bool}
    (he : s.execAct L a rest env (.delivered x t isReply) = some s') :
    ActStep L s a rest env (.delivered x t isReply) s' := by
  simp only [TxnState.execAct, bind, Option.bind_eq_some_iff] at he
  obtain ⟨T, hT, he⟩ := he
  split at he
  · rename_i hc
    cases he
    rw [Bool.and_eq_true] at hc
    obtain ⟨hr, how⟩ : isReply = false ∧ T.oneWay = false := by simpa using hc
    subst hr
    exact .deliveredCall hT how
  · rename_i hc
    cases he
    refine .deliveredOther hT ?_
    rw [Bool.and_eq_true, not_and_or] at hc
    simpa using hc

/-- Every step of a task is by one of the rules. -/
theorem execAct_cases (he : s.execAct L a rest env act = some s') :
    ActStep L s a rest env act s' := by
  cases act with
  | check x tp n oneWay => exact execAct_check he
  | replyTarget x irt oneWay => exact execAct_replyTarget he
  | send x tp n irt th oneWay =>
    simp only [TxnState.execAct] at he
    split at he
    · cases he; exact .sendAlloc
    · cases he; exact .sendFail
  | build x t irt th => exact execAct_build he
  | procTransaction x t th => exact execAct_procTransaction he
  | popTransaction x t =>
    simp only [TxnState.execAct, bind, Option.bind_eq_some_iff] at he
    obtain ⟨s₁, hpop, he⟩ := he
    cases he
    exact .pop hpop
  | unwind t irt =>
    simp only [TxnState.execAct, bind, Option.bind_eq_some_iff] at he
    obtain ⟨T, hT, b, hb, he⟩ := he
    cases he
    exact .unwind hT hb
  | sendFailedReply t => exact execAct_sendFailedReply he
  | freeTransaction t => exact execAct_freeTransaction he
  | cleanupTransaction t => exact execAct_cleanupTransaction he
  | freeBuf b => exact execAct_freeBuf he
  | freeBufAsync b => exact execAct_freeBufAsync he
  | freeBufRelease b =>
    simp only [TxnState.execAct, bind, Option.bind_eq_some_iff, Option.guard_eq_some',
      exists_const] at he
    obtain ⟨B, hB, ht, he⟩ := he
    cases he
    exact .freeBufRelease hB ht
  | readRetry x =>
    simp only [TxnState.execAct] at he
    cases he
    exact .readRetry fun hp => by
      simp only [Bool.and_eq_true, Option.isNone_iff_eq_none, List.isEmpty_iff] at hp
      exact hp.1
  | wait x procWork => exact execAct_wait he
  | sleep x procWork => exact execAct_sleep he
  | read x procWork => exact execAct_read he
  | deliver x t => exact execAct_deliver he
  | copy x t => exact execAct_copy he
  | delivered x t isReply => exact execAct_delivered he
  | releaseWork l =>
    simp only [TxnState.execAct] at he
    split at he
    · cases he; exact .releaseDone ‹_›
    · cases he; exact .releaseTransaction ‹_›
    · cases he; exact .releaseOther ‹_›
  | nodeRelease n => cases he; exact .nodeRelease

/-- `node->has_async_transaction` is set for a transaction with `TF_ONE_WAY`. -/
def TxnState.setAsync (s : TxnState) (oneWay : Bool) (n : NodeId) : TxnState :=
  if oneWay then s.setNode n { s.node n with hasAsyncTransaction := true } else s

section setAsync

variable {oneWay : Bool} {n : NodeId}

@[simp] theorem setAsync_frames : (s.setAsync oneWay n).frames = s.frames := by
  unfold TxnState.setAsync; split <;> rfl

@[simp] theorem setAsync_isDead : (s.setAsync oneWay n).isDead = s.isDead := by
  unfold TxnState.setAsync; split <;> rfl

@[simp] theorem setAsync_thread : (s.setAsync oneWay n).thread = s.thread := by
  unfold TxnState.setAsync; split <;> rfl

@[simp] theorem setAsync_waiting : (s.setAsync oneWay n).waitingThreads = s.waitingThreads := by
  unfold TxnState.setAsync; split <;> rfl

@[simp] theorem setAsync_todo : (s.setAsync oneWay n).todo = s.todo := by
  unfold TxnState.setAsync; split <;> rfl

@[simp] theorem setAsync_txn : (s.setAsync oneWay n).txn = s.txn := by
  unfold TxnState.setAsync; split <;> rfl

@[simp] theorem setAsync_buf : (s.setAsync oneWay n).buf = s.buf := by
  unfold TxnState.setAsync; split <;> rfl

theorem setAsync_flag (m : NodeId) : ((s.setAsync oneWay n).node m).hasAsyncTransaction =
    ((s.node m).hasAsyncTransaction || (oneWay && decide (m = n))) := by
  unfold TxnState.setAsync
  cases oneWay with
  | false => simp
  | true =>
    rcases eq_or_ne m n with rfl | hne
    · simp
    · simp [hne]

end setAsync

/-- What `binder_proc_transaction` does with a transaction that it accepts: it waits behind the
transaction to the node that is in flight, or it goes to its thread, to a thread that waits for
work, or to the process. -/
theorem procTransaction_cases {oneWay : Bool} {n : NodeId} {p : ProcId} {th : Option ThreadId}
    (he : s.binderProcTransaction t oneWay n p th = some (true, s')) :
    s.isDead p = false ∧
    ((oneWay = true ∧ (s.node n).hasAsyncTransaction = true ∧ th = none ∧
        s' = (s.setAsync oneWay n).enqueue (.node n) (.transaction t)) ∨
      (oneWay = true → (s.node n).hasAsyncTransaction = false) ∧
        ((∃ y, th = some y ∧ oneWay = false ∧ (s.thread y).isDead = false ∧
            s' = s.enqueueThread y (.transaction t)) ∨
          (th = none ∧ ∃ y ys, s.waitingThreads p = y :: ys ∧
            s' = ((s.setAsync oneWay n).setWaiting p ys).enqueueThread y (.transaction t)) ∨
          (th = none ∧ s.waitingThreads p = [] ∧
            s' = (s.setAsync oneWay n).enqueue (.proc p) (.transaction t)))) := by
  simp only [TxnState.binderProcTransaction, bind, Option.bind_eq_some_iff, Option.guard_eq_some',
    exists_const] at he
  obtain ⟨hg, he⟩ := he
  have hs₁ : (if oneWay then s.setNode n { s.node n with hasAsyncTransaction := true } else s) =
    s.setAsync oneWay n := rfl
  rw [hs₁] at he
  rw [setAsync_isDead, setAsync_thread] at he
  split at he
  · cases he
  rename_i hlive
  simp only [Bool.or_eq_true, not_or, Bool.not_eq_true] at hlive
  refine ⟨hlive.1, ?_⟩
  by_cases hpend : (oneWay && (s.node n).hasAsyncTransaction) = true
  · rw [Bool.and_eq_true] at hpend
    have hth : th = none := by simpa [hpend.1] using hg
    subst hth
    simp only [hpend.1, hpend.2, Bool.and_self, Bool.not_true, Bool.and_false, Bool.false_eq_true,
      if_false, if_true, Option.some.injEq, Prod.mk.injEq, true_and] at he
    exact .inl ⟨hpend.1, hpend.2, rfl, by rw [hpend.1]; exact he.symm⟩
  · rw [Bool.not_eq_true] at hpend
    refine .inr ⟨fun how => by simpa [how] using hpend, ?_⟩
    simp only [hpend, Bool.not_false, Bool.and_true] at he
    cases th with
    | some y =>
      have how : oneWay = false := by simpa using hg
      subst how
      simp only [Option.isNone_some, Bool.false_eq_true, if_false, Option.some.injEq, Prod.mk.injEq,
        true_and] at he
      exact .inl ⟨y, rfl, rfl, by simpa using hlive.2, he.symm⟩
    | none =>
      simp only [Option.isNone_none, if_true, TxnState.selectThread, setAsync_waiting] at he
      cases hw : s.waitingThreads p with
      | nil =>
        simp only [hw, Bool.false_eq_true, if_false, Option.some.injEq, Prod.mk.injEq, true_and] at he
        exact .inr (.inr ⟨rfl, rfl, he.symm⟩)
      | cons y ys =>
        simp only [hw, Option.some.injEq, Prod.mk.injEq, true_and] at he
        exact .inr (.inl ⟨rfl, y, ys, rfl, he.symm⟩)

/-- `binder_proc_transaction` fails if the process or the thread is dead. -/
theorem procTransaction_fails {oneWay : Bool} {n : NodeId} {p : ProcId} {th : Option ThreadId}
    (he : s.binderProcTransaction t oneWay n p th = some (false, s')) :
    s' = s.setAsync oneWay n ∧
      (s.isDead p = true ∨ ∃ y, th = some y ∧ oneWay = false ∧ (s.thread y).isDead = true) := by
  simp only [TxnState.binderProcTransaction, bind, Option.bind_eq_some_iff, Option.guard_eq_some',
    exists_const] at he
  obtain ⟨hg, he⟩ := he
  have hs₁ : (if oneWay then s.setNode n { s.node n with hasAsyncTransaction := true } else s) =
    s.setAsync oneWay n := rfl
  rw [hs₁] at he
  rw [setAsync_isDead, setAsync_thread] at he
  split at he
  · rename_i hd
    simp only [Option.some.injEq, Prod.mk.injEq, true_and] at he
    refine ⟨he.symm, ?_⟩
    rw [Bool.or_eq_true] at hd
    refine hd.imp_right fun hd => ?_
    cases th with
    | none => cases hd
    | some y => exact ⟨y, rfl, by simpa using hg, hd⟩
  · split at he <;> cases he

end Redroid.Binder.Txn
