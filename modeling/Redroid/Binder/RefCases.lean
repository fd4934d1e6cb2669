import Redroid.Binder.Ref

/-!
# What a step on nodes and references can do

* `ActStep`: one rule for each way that a critical section of a task can go; `OpStep`: one rule for
  each way that an operation can start or a transaction can go on.
* `exec_cases`: every step is by one of the rules.
-/

namespace Redroid.Binder.Refs

open RefState

/-- The reference increment of `binder_inc_ref_for_node` is over, for `why`: `res` is the reference
if it has succeeded. -/
inductive IncDone (s : RefState) (i : Nat) (a : Actor) (rest : List Act) (p : ProcId) (n : NodeId)
    (strong : Bool) : Why → Option RefId → RefState → Prop
  | object {b r B} : s.bufs[b]? = some B → IncDone s i a rest p n strong (.object b) (some r)
      ((s.setBuf b { B with objects := B.objects ++ [.ofHandle strong (s.descOf r)] }).setTask i a rest)
  | failed {b B} : s.bufs[b]? = some B → IncDone s i a rest p n strong (.object b) none
      ((s.setReleasing b B).setTask i a (.putNode n :: releaseActs b B true))
  | command {c r} : IncDone s i a rest p n strong (.command c) (some r) (s.setTask i a rest)
  | again {c} : IncDone s i a rest p n strong (.command c) none
      (s.setTask i a (.updateRef p 0 true strong :: rest))

/-- The steps of the task `i`, which goes on with `rest` afterwards. -/
inductive ActStep (L : Layout) (s : RefState) (i : Nat) (a : Actor) (rest : List Act) :
    Act → RefState → Prop
  | checksFail {x n tp} : ActStep L s i a rest (.checks x n tp)
      (s.setTask i a (.decNode n true :: .putNode n :: rest))
  | checks {x n tp} : L.procOf x ≠ tp → ActStep L s i a rest (.checks x n tp)
      ((s.addBuf ⟨tp, some n, [], .building⟩).setTask i a (.build x s.bufs.length (some n) :: rest))
  | newNodeFail {x b o B} : s.bufs[b]? = some B → ActStep L s i a rest (.newNode x b o)
      ((s.setReleasing b B).setTask i a (releaseActs b B true))
  | newNode {x b o n s₁} : s.initNode (L.procOf x) o.binder o.cookie = some (n, s₁) →
      ActStep L s i a rest (.newNode x b o)
        (s₁.setTask i a (.translateBinder x b n o :: .putNode n :: rest))
  | translateBinderFail {x b n o B} : s.bufs[b]? = some B →
      ActStep L s i a rest (.translateBinder x b n o)
        ((s.setReleasing b B).setTask i a (.putNode n :: releaseActs b B true))
  | translateBinder {x b n o N B} : s.node n = some N → s.bufs[b]? = some B →
      N.cookie = o.cookie → ActStep L s i a rest (.translateBinder x b n o)
        (s.setTask i a (.incRef (.object b) B.proc n o.strong (some x) :: rest))
  | translateHandleFail {x b n strong B} : s.bufs[b]? = some B →
      ActStep L s i a rest (.translateHandle x b n strong)
        ((s.setReleasing b B).setTask i a (.putNode n :: releaseActs b B true))
  | translateOwn {x b n strong N B} : s.node n = some N → s.bufs[b]? = some B →
      N.proc = some B.proc → ActStep L s i a rest (.translateHandle x b n strong)
        (((s.setNode n (N.inc strong false none (s.isMgr L n N)).2).setBuf b
          { B with objects := B.objects ++ [.ofBinder strong N.ptr N.cookie] }).setTask i a rest)
  | translateHandle {x b n strong N B} : s.node n = some N → s.bufs[b]? = some B →
      N.proc ≠ some B.proc → ActStep L s i a rest (.translateHandle x b n strong)
        (s.setTask i a (.incRef (.object b) B.proc n strong none :: rest))
  /-- `binder_inc_ref_for_node`: there is a reference. -/
  | incFound {act why p n strong list r ok s₁ s'} :
      act = .incRef why p n strong list ∨ act = .newRef why p n strong list →
      s.outerFree p = true → s.getRefForNode p n = some r →
      s.incRef L r strong list = some (ok, s₁) →
      IncDone s₁ i a rest p n strong why (if ok then some r else none) s' →
      ActStep L s i a rest act s'
  | incAlloc {why p n strong list} : s.outerFree p = true → s.getRefForNode p n = none →
      ActStep L s i a rest (.incRef why p n strong list)
        (s.setTask i a (.newRef why p n strong list :: rest))
  | incNoMem {why p n strong list s'} : s.outerFree p = true → s.getRefForNode p n = none →
      IncDone s i a rest p n strong why none s' →
      ActStep L s i a rest (.incRef why p n strong list) s'
  | addRef {why p n strong list s₁} : s.outerFree p = true → s.getRefForNode p n = none →
      s.addRef L p n = some s₁ → ActStep L s i a rest (.newRef why p n strong list)
        (s₁.setTask i a (.incNewRef why p n s.nextRef strong list :: rest))
  | incNew {why p n r strong list ok s₁ s'} : s.incRef L r strong list = some (ok, s₁) →
      IncDone s₁ i a rest p n strong why (if ok then some r else none) s' →
      ActStep L s i a rest (.incNewRef why p n r strong list) s'
  | decNode {n strong s₁} : s.decNode n strong false = some s₁ →
      ActStep L s i a rest (.decNode n strong) (s₁.setTask i a rest)
  | putNode {n s₁} : s.putNode n = some s₁ →
      ActStep L s i a rest (.putNode n) (s₁.setTask i a rest)
  | releaseEnd {p} : ActStep L s i a rest (.releaseObjects p []) (s.setTask i a rest)
  | releaseSkip {p o os} : (o.isBinder = true → s.getNode p o.binder = none) →
      ActStep L s i a rest (.releaseObjects p (o :: os))
        (s.setTask i a (.releaseObjects p os :: rest))
  | releaseBinder {p o os n N} : o.isBinder = true → s.getNode p o.binder = some n →
      s.node n = some N → ActStep L s i a rest (.releaseObjects p (o :: os))
        ((s.setNode n { N with tmpRefs := N.tmpRefs + 1 }).setTask i a
          (.decNode n o.strong :: .putNode n :: .releaseObjects p os :: rest))
  | releaseHandle {p o os r last s₁} : o.isBinder = false → s.outerFree p = true →
      s.getRef p o.handle o.strong = some r → s.decRef r o.strong = some (last, s₁) →
      ActStep L s i a rest (.releaseObjects p (o :: os)) (s₁.setTask i a
        ((if last then [.cleanupRef p r] else []) ++ .releaseObjects p os :: rest))
  | cleanupRef {p r s₁} : s.cleanupRef r = some s₁ →
      ActStep L s i a rest (.cleanupRef p r) (s₁.setTask i a rest)
  | freeBuf {b B} : s.bufs[b]? = some B → ActStep L s i a rest (.freeBuf b)
      ((s.setBuf b { B with status := .freed }).setTask i a rest)
  | updateNone {p desc increment strong} :
      ActStep L s i a rest (.updateRef p desc increment strong) (s.setTask i a rest)
  | updateInc {p desc strong r ok s₁} : s.outerFree p = true →
      s.getRef p desc strong = some r → s.incRef L r strong none = some (ok, s₁) →
      ActStep L s i a rest (.updateRef p desc true strong) (s₁.setTask i a rest)
  | updateDec {p desc strong r last s₁} : s.outerFree p = true →
      s.getRef p desc strong = some r → s.decRef r strong = some (last, s₁) →
      ActStep L s i a rest (.updateRef p desc false strong)
        (s₁.setTask i a ((if last then [.cleanupRef p r] else []) ++ rest))
  /-- `BC_*_DONE` with a wrong cookie, or nothing pending. -/
  | doneBad {n strong cookie N} : s.node n = some N →
      (N.cookie ≠ cookie ∨ N.pending strong = false) →
      ActStep L s i a rest (.done n strong cookie) (s.setTask i a rest)
  | done {n strong N free s₁} : s.node n = some N →
      N.pending strong = true →
      (s.setNode n (N.clearPending strong)).decNilocked n strong false = some (free, s₁) →
      ActStep L s i a rest (.done n strong N.cookie)
        ((s₁.addMsgs n [if strong then .acquireDone else .increfsDone]).setTask i a rest)
  | becomeMgr {c n N} : s.node n = some N → ActStep L s i a rest (.becomeMgr c n)
      (((s.setNode n { N with
          localWeakRefs := N.localWeakRefs + 1, localStrongRefs := N.localStrongRefs + 1
          hasStrongRef := true, hasWeakRef := true }).setMgr c (some n)).setTask i a rest)
  | dropWork {act n N l} : ((∃ l, act = .releaseWork l) ∨ ∃ p, act = .releaseThreads p) →
      s.node n = some N → N.work = some l →
      ActStep L s i a rest act ((s.setNode n { N with work := none }).setTask i a (act :: rest))
  | dropEnd {act} : ((∃ l, act = .releaseWork l) ∨ ∃ p, act = .releaseThreads p) →
      ActStep L s i a rest act (s.setTask i a rest)
  | clearMgr {p n N} : s.ctxFree (L.ctxOf p) = true → s.ctxMgr (L.ctxOf p) = some n →
      s.node n = some N → N.proc = some p → ActStep L s i a rest (.clearMgr p)
        ((s.setMgr (L.ctxOf p) none).setTask i a rest)
  | clearNone {p} : s.ctxFree (L.ctxOf p) = true →
      (∀ n N, s.ctxMgr (L.ctxOf p) = some n → s.node n = some N → N.proc ≠ some p) →
      ActStep L s i a rest (.clearMgr p) (s.setTask i a rest)
  | setDead {p} : ActStep L s i a rest (.setDead p) ((s.setDead p).setTask i a rest)
  | releaseNodesEnd {p} : s.nodes p = [] →
      ActStep L s i a rest (.releaseNodes p) (s.setTask i a rest)
  | releaseNodes {p n ns N} : s.nodes p = n :: ns → s.node n = some N →
      ActStep L s i a rest (.releaseNodes p)
        (((s.setNode n { N with tmpRefs := N.tmpRefs + 1 }).setNodes p ns).setTask i a
          (.nodeRelease p n :: .releaseNodes p :: rest))
  | nodeReleaseFree {p n N} : s.node n = some N → N.refs = [] → N.tmpRefs = 1 →
      ActStep L s i a rest (.nodeRelease p n) ((s.freeNode n none).setTask i a rest)
  | nodeRelease {p n N} : s.node n = some N → N.tmpRefs ≠ 0 → (N.refs ≠ [] ∨ N.tmpRefs ≠ 1) →
      ActStep L s i a rest (.nodeRelease p n)
        ((s.setNode n { N with
          work := none, proc := none, localStrongRefs := 0, localWeakRefs := 0 }).setTask i a
          (.putNode n :: rest))
  | releaseRefsEnd {p} : s.refsByDesc p = [] →
      ActStep L s i a rest (.releaseRefs p) (s.setTask i a rest)
  | releaseRefs {p r rs s₁} : s.outerFree p = true → s.refsByDesc p = r :: rs →
      s.cleanupRef r = some s₁ →
      ActStep L s i a rest (.releaseRefs p) (s₁.setTask i a (.releaseRefs p :: rest))

/-- The thread `x` has the node `n` as the target of a transaction to `handle`. -/
def IsTarget (L : Layout) (s : RefState) (x : ThreadId) (handle : Nat) (n : NodeId) : Prop :=
  (handle ≠ 0 ∧ s.outerFree (L.procOf x) = true ∧
    ∃ r R, s.getRef (L.procOf x) handle true = some r ∧ s.ref r = some R ∧ R.node = n) ∨
  (handle = 0 ∧ s.ctxFree (L.ctxOf (L.procOf x)) = true ∧
    s.ctxMgr (L.ctxOf (L.procOf x)) = some n)

/-- The steps that start an operation or go on with a transaction, and those of the tasks. -/
inductive OpStep (L : Layout) (s : RefState) : RefOp → RefState → Prop
  | transaction {x handle n N tp} : s.idle L x = true → IsTarget L s x handle n →
      s.node n = some N → N.proc = some tp → OpStep L s (.transaction x handle)
        ((s.setNode n { N with
          localStrongRefs := N.localStrongRefs + 1, tmpRefs := N.tmpRefs + 1 }).addTask (.thread x)
          [.checks x n tp])
  | reply {x tp} : s.idle L x = true → L.procOf x ≠ tp → OpStep L s (.reply x tp)
      ((s.addBuf ⟨tp, none, [], .building⟩).addTask (.thread x) [.build x s.bufs.length none])
  | binderFound {i a x b target rest o n N} :
      s.tasks[i]? = some ⟨a, .build x b target :: rest⟩ → o.isBinder = true →
      s.getNode (L.procOf x) o.binder = some n → s.node n = some N → OpStep L s (.object i o)
        ((s.setNode n { N with tmpRefs := N.tmpRefs + 1 }).setTask i a
          (.translateBinder x b n o :: .putNode n :: .build x b target :: rest))
  | binderNew {i a x b target rest o} : s.tasks[i]? = some ⟨a, .build x b target :: rest⟩ →
      o.isBinder = true → s.getNode (L.procOf x) o.binder = none → OpStep L s (.object i o)
        (s.setTask i a (.newNode x b o :: .build x b target :: rest))
  | handle {i a x b target rest o r R N} : s.tasks[i]? = some ⟨a, .build x b target :: rest⟩ →
      o.isBinder = false → s.outerFree (L.procOf x) = true →
      s.getRef (L.procOf x) o.handle o.strong = some r → s.ref r = some R →
      s.node R.node = some N → OpStep L s (.object i o)
        ((s.setNode R.node { N with tmpRefs := N.tmpRefs + 1 }).setTask i a
          (.translateHandle x b R.node o.strong :: .putNode R.node :: .build x b target :: rest))
  | fails {op i a x b target rest B} : (op = .fail i ∨ op = .send i ∨ ∃ o, op = .object i o) →
      s.tasks[i]? = some ⟨a, .build x b target :: rest⟩ → s.bufs[b]? = some B →
      OpStep L s op ((s.setReleasing b B).setTask i a (releaseActs b B true))
  | send {i a x b target rest B} : s.tasks[i]? = some ⟨a, .build x b target :: rest⟩ →
      s.bufs[b]? = some B → (target.isSome = true → s.isDead B.proc = false) →
      OpStep L s (.send i) ((s.setBuf b { B with status := .sent }).setTask i a
        (target.toList.map .putNode ++ rest))
  | freeBuffer {x b B} : s.idle L x = true → s.bufs[b]? = some B → B.status = .sent →
      B.proc = L.procOf x → OpStep L s (.freeBuffer x b)
        ((s.setReleasing b B).addTask (.thread x) (releaseActs b B false))
  | update {x desc increment strong} : s.idle L x = true →
      OpStep L s (.refCommand x desc increment strong)
        (s.addTask (.thread x) [.updateRef (L.procOf x) desc increment strong])
  | updateMgr {x n N strong} : s.idle L x = true → s.ctxFree (L.ctxOf (L.procOf x)) = true →
      s.ctxMgr (L.ctxOf (L.procOf x)) = some n → s.node n = some N →
      N.proc ≠ some (L.procOf x) → OpStep L s (.refCommand x 0 true strong)
        (s.addTask (.thread x)
          [.incRef (.command (L.ctxOf (L.procOf x))) (L.procOf x) n strong none])
  | doneCommand {x ptr cookie strong n N} : s.idle L x = true →
      s.getNode (L.procOf x) ptr = some n → s.node n = some N →
      OpStep L s (.doneCommand x ptr cookie strong)
        ((s.setNode n { N with tmpRefs := N.tmpRefs + 1 }).addTask (.thread x)
          [.done n strong cookie, .putNode n])
  | tell {x n N l} : s.idle L x = true → s.node n = some N → N.work = some l →
      N.proc = some (L.procOf x) → N.weak = true → OpStep L s (.readNode x n)
        ((s.addMsgs n (tellMsgs N)).setNode n N.tell)
  | tellFree {x n N l} : s.idle L x = true → s.node n = some N → N.work = some l →
      N.proc = some (L.procOf x) → N.weak = false → OpStep L s (.readNode x n)
        ((s.addMsgs n (tellMsgs N)).freeNode n (some (L.procOf x)))
  | nodeInfo {x desc r R N} : s.idle L x = true → s.outerFree (L.procOf x) = true →
      s.getRef (L.procOf x) desc true = some r → s.ref r = some R → s.node R.node = some N →
      OpStep L s (.nodeInfo x desc)
        ((s.setNode R.node { N with tmpRefs := N.tmpRefs + 1 }).addTask (.thread x) [.putNode R.node])
  | showNode {x n N} : s.idle L x = true → s.node n = some N →
      (∀ p, N.proc = some p → n ∈ s.nodes p) → OpStep L s (.showNode x n)
        ((s.setNode n { N with tmpRefs := N.tmpRefs + 1 }).addTask (.thread x) [.putNode n])
  | setCtxMgr {x ptr cookie n s₁} : s.idle L x = true →
      s.ctxFree (L.ctxOf (L.procOf x)) = true → s.ctxMgr (L.ctxOf (L.procOf x)) = none →
      s.initNode (L.procOf x) ptr cookie = some (n, s₁) → OpStep L s (.setCtxMgr x ptr cookie)
        (s₁.addTask (.thread x) [.becomeMgr (L.ctxOf (L.procOf x)) n, .putNode n])
  | threadExit {x} : s.idle L x = true → OpStep L s (.threadExit x)
      ((s.exitThread x).addTask (.thread x) [.releaseWork (.thread x)])
  | close {p} : s.closed p = false → s.procIdle L p = true → OpStep L s (.close p)
      ((s.setClosed p).addTask (.worker p) [.clearMgr p, .setDead p, .releaseThreads p,
        .releaseNodes p, .releaseRefs p, .releaseWork (.proc p)])
  | run {i ok a act rest s'} : s.tasks[i]? = some ⟨a, act :: rest⟩ → ActStep L s i a rest act s' →
      OpStep L s (.run i ok) s'

variable {L : Layout} {s s' s₁ : RefState} {i : Nat} {a : Actor} {act : Act} {rest : List Act}
  {ok : Bool} {n : NodeId} {r : RefId} {p : ProcId}

theorem failTxn_eq {acts : List Act} {b : BufId} (h : s.failTxn i a acts b = some s') :
    ∃ B, s.bufs[b]? = some B ∧
      s' = (s.setReleasing b B).setTask i a (acts ++ releaseActs b B true) := by
  simp only [RefState.failTxn, bind, Option.bind_eq_some_iff] at h
  obtain ⟨B, hB, h⟩ := h
  cases h
  exact ⟨B, hB, rfl⟩

theorem takeNode_eq (h : s.takeNode n = some s') : ∃ N, s.node n = some N ∧
    s' = s.setNode n { N with tmpRefs := N.tmpRefs + 1 } := by
  simp only [RefState.takeNode, bind, Option.bind_eq_some_iff] at h
  obtain ⟨N, hN, h⟩ := h
  cases h
  exact ⟨N, hN, rfl⟩

theorem incRefDone_cases {why : Why} {strong : Bool} {res : Option (Bool × RefId)}
    (h : s.incRefDone i a rest why p n strong res = some s') :
    IncDone s i a rest p n strong why
      (res.bind fun q => if q.1 then some q.2 else none) s' := by
  have hfail {b : BufId} (h : s.failTxn i a [.putNode n] b = some s') :
      IncDone s i a rest p n strong (.object b) none s' := by
    obtain ⟨B, hB, rfl⟩ := failTxn_eq h
    exact .failed hB
  cases why with
  | object b =>
    cases res with
    | none => exact hfail h
    | some q =>
      obtain ⟨done, r⟩ := q
      cases done with
      | false => exact hfail h
      | true =>
        simp only [RefState.incRefDone, RefState.addObject, bind, Option.bind_eq_some_iff] at h
        obtain ⟨s₁, ⟨B, hB, hs₁⟩, h⟩ := h
        cases hs₁
        cases h
        exact .object hB
  | command c =>
    cases res with
    | none => cases h; exact .again
    | some q =>
      obtain ⟨done, r⟩ := q
      cases done with
      | false => cases h; exact .again
      | true => cases h; exact .command

theorem releaseWork_cases {l : WorkList → Bool}
    (h : s.releaseWork i a act rest l = some s') :
    (∃ n N l', s.node n = some N ∧ N.work = some l' ∧ l l' = true ∧
      s' = (s.setNode n { N with work := none }).setTask i a (act :: rest)) ∨
    (s.firstWork l = none ∧ s' = s.setTask i a rest) := by
  simp only [RefState.releaseWork] at h
  split at h
  · rename_i n hn
    obtain ⟨N, hN, h⟩ := Option.bind_eq_some_iff.mp h
    cases h
    have := List.find?_some hn
    rw [hN, Option.any_some, Option.any_eq_true] at this
    obtain ⟨l', hl', hl⟩ := this
    exact .inl ⟨n, N, l', hN, hl', hl, rfl⟩
  · cases h
    exact .inr ⟨‹_›, rfl⟩

/-- Every step of a task is by one of the rules. -/
theorem execAct_cases (h : s.execAct L i a rest ok act = some s') : ActStep L s i a rest act s' := by
  cases act with
  | checks x n tp =>
    simp only [RefState.execAct] at h
    split at h
    · cases h; exact .checksFail
    · rename_i hne
      cases h
      exact .checks (by simp at hne; exact hne.1)
  | build => cases h
  | newNode x b o =>
    simp only [RefState.execAct] at h
    split at h
    · obtain ⟨B, hB, rfl⟩ := failTxn_eq h
      exact .newNodeFail hB
    · obtain ⟨⟨n, s₁⟩, hs₁, h⟩ := Option.bind_eq_some_iff.mp h
      cases h
      exact .newNode hs₁
  | translateBinder x b n o =>
    simp only [RefState.execAct, bind, Option.bind_eq_some_iff] at h
    obtain ⟨N, hN, B, hB, h⟩ := h
    split at h
    · obtain ⟨B', hB', rfl⟩ := failTxn_eq h
      exact .translateBinderFail hB'
    · rename_i hc
      cases h
      exact .translateBinder hN hB (by simp at hc; exact hc.1)
  | translateHandle x b n strong =>
    simp only [RefState.execAct, bind, Option.bind_eq_some_iff] at h
    obtain ⟨N, hN, B, hB, h⟩ := h
    split at h
    · obtain ⟨B', hB', rfl⟩ := failTxn_eq h
      exact .translateHandleFail hB'
    split at h
    · rename_i hp
      simp only [RefState.addObject, bind, Option.bind_eq_some_iff] at h
      obtain ⟨s₁, ⟨B', hB', hs₁⟩, h⟩ := h
      have : s.bufs[b]? = some B' := hB'
      rw [hB] at this
      cases this
      cases hs₁
      cases h
      exact .translateOwn hN hB hp
    · cases h
      exact .translateHandle hN hB ‹_›
  | incRef why p n strong list =>
    simp only [RefState.execAct, bind, Option.bind_eq_some_iff, Option.guard_eq_some',
      exists_const] at h
    obtain ⟨ho, h⟩ := h
    split at h
    · obtain ⟨⟨ok, s₁⟩, hs₁, h⟩ := Option.bind_eq_some_iff.mp h
      exact .incFound (.inl rfl) ho ‹_› hs₁ (incRefDone_cases h)
    · split at h
      · cases h; exact .incAlloc ho ‹_›
      · exact .incNoMem ho ‹_› (incRefDone_cases h)
  | newRef why p n strong list =>
    simp only [RefState.execAct, bind, Option.bind_eq_some_iff, Option.guard_eq_some',
      exists_const] at h
    obtain ⟨ho, h⟩ := h
    split at h
    · obtain ⟨⟨ok, s₁⟩, hs₁, h⟩ := Option.bind_eq_some_iff.mp h
      exact .incFound (.inr rfl) ho ‹_› hs₁ (incRefDone_cases h)
    · obtain ⟨s₁, hs₁, h⟩ := Option.bind_eq_some_iff.mp h
      cases h
      exact .addRef ho ‹_› hs₁
  | incNewRef why p n r strong list =>
    simp only [RefState.execAct, bind, Option.bind_eq_some_iff] at h
    obtain ⟨⟨ok, s₁⟩, hs₁, h⟩ := h
    exact .incNew hs₁ (incRefDone_cases h)
  | decNode n strong =>
    simp only [RefState.execAct, bind, Option.bind_eq_some_iff] at h
    obtain ⟨s₁, hs₁, h⟩ := h
    cases h
    exact .decNode hs₁
  | putNode n =>
    simp only [RefState.execAct, bind, Option.bind_eq_some_iff] at h
    obtain ⟨s₁, hs₁, h⟩ := h
    cases h
    exact .putNode hs₁
  | releaseObjects p os =>
    cases os with
    | nil => cases h; exact .releaseEnd
    | cons o os =>
      simp only [RefState.execAct] at h
      split at h
      · rename_i hb
        split at h
        · cases h; exact .releaseSkip fun _ => ‹_›
        · obtain ⟨s₁, hs₁, h⟩ := Option.bind_eq_some_iff.mp h
          obtain ⟨N, hN, rfl⟩ := takeNode_eq hs₁
          cases h
          exact .releaseBinder hb ‹_› hN
      · rename_i hb
        rw [Bool.not_eq_true] at hb
        simp only [bind, Option.bind_eq_some_iff, Option.guard_eq_some', exists_const] at h
        obtain ⟨ho, h⟩ := h
        split at h
        · cases h; exact .releaseSkip fun h => by rw [hb] at h; cases h
        · obtain ⟨⟨last, s₁⟩, hs₁, h⟩ := Option.bind_eq_some_iff.mp h
          cases h
          exact .releaseHandle hb ho ‹_› hs₁
  | cleanupRef p r =>
    simp only [RefState.execAct, bind, Option.bind_eq_some_iff] at h
    obtain ⟨s₁, hs₁, h⟩ := h
    cases h
    exact .cleanupRef hs₁
  | freeBuf b =>
    simp only [RefState.execAct, bind, Option.bind_eq_some_iff] at h
    obtain ⟨B, hB, h⟩ := h
    cases h
    exact .freeBuf hB
  | updateRef p desc increment strong =>
    simp only [RefState.execAct, bind, Option.bind_eq_some_iff, Option.guard_eq_some',
      exists_const] at h
    obtain ⟨ho, h⟩ := h
    split at h
    · cases h; exact .updateNone
    · split at h
      · rename_i hi
        subst hi
        obtain ⟨⟨ok, s₁⟩, hs₁, h⟩ := Option.bind_eq_some_iff.mp h
        cases h
        exact .updateInc ho ‹_› hs₁
      · rename_i hi
        rw [Bool.not_eq_true] at hi
        subst hi
        obtain ⟨⟨last, s₁⟩, hs₁, h⟩ := Option.bind_eq_some_iff.mp h
        cases h
        exact .updateDec ho ‹_› hs₁
  | done n strong cookie =>
    simp only [RefState.execAct, bind, Option.bind_eq_some_iff] at h
    obtain ⟨N, hN, h⟩ := h
    split at h
    · rename_i hc
      cases h
      refine .doneBad hN ?_
      simpa using hc
    · rename_i hc
      rw [Bool.or_eq_true, not_or] at hc
      obtain ⟨hc, hp⟩ := hc
      obtain ⟨⟨free, s₁⟩, hs₁, h⟩ := Option.bind_eq_some_iff.mp h
      cases h
      obtain rfl : N.cookie = cookie := by simpa using hc
      exact .done hN (by simpa using hp) hs₁
  | becomeMgr c n =>
    simp only [RefState.execAct, bind, Option.bind_eq_some_iff] at h
    obtain ⟨N, hN, h⟩ := h
    cases h
    exact .becomeMgr hN
  | releaseWork l =>
    rcases releaseWork_cases h with ⟨n, N, l', hN, hl', -, rfl⟩ | ⟨-, rfl⟩
    · exact .dropWork (.inl ⟨l, rfl⟩) hN hl'
    · exact .dropEnd (.inl ⟨l, rfl⟩)
  | clearMgr p =>
    simp only [RefState.execAct, bind, Option.bind_eq_some_iff, Option.guard_eq_some',
      exists_const] at h
    obtain ⟨hc, h⟩ := h
    cases h
    split
    · rename_i hown
      simp only [Option.any_eq_true, beq_iff_eq] at hown
      obtain ⟨n, hn, N, hN, hp⟩ := hown
      exact .clearMgr hc hn hN hp
    · rename_i hown
      refine .clearNone hc fun n N hn hN hp => hown ?_
      simp [hn, hN, hp]
  | setDead p => cases h; exact .setDead
  | releaseThreads p =>
    rcases releaseWork_cases h with ⟨n, N, l', hN, hl', -, rfl⟩ | ⟨-, rfl⟩
    · exact .dropWork (.inr ⟨p, rfl⟩) hN hl'
    · exact .dropEnd (.inr ⟨p, rfl⟩)
  | releaseNodes p =>
    simp only [RefState.execAct] at h
    split at h
    · cases h; exact .releaseNodesEnd ‹_›
    · obtain ⟨s₁, hs₁, h⟩ := Option.bind_eq_some_iff.mp h
      obtain ⟨N, hN, rfl⟩ := takeNode_eq hs₁
      cases h
      exact .releaseNodes ‹_› hN
  | nodeRelease p n =>
    simp only [RefState.execAct, bind, Option.bind_eq_some_iff, Option.guard_eq_some',
      exists_const] at h
    obtain ⟨N, hN, ht, h⟩ := h
    split at h
    · rename_i hc
      cases h
      rw [Bool.and_eq_true, List.isEmpty_iff, beq_iff_eq] at hc
      exact .nodeReleaseFree hN hc.1 hc.2
    · rename_i hc
      cases h
      rw [Bool.and_eq_true, List.isEmpty_iff, beq_iff_eq, not_and_or] at hc
      exact .nodeRelease hN ht hc
  | releaseRefs p =>
    simp only [RefState.execAct, bind, Option.bind_eq_some_iff, Option.guard_eq_some',
      exists_const] at h
    obtain ⟨ho, h⟩ := h
    split at h
    · cases h; exact .releaseRefsEnd ‹_›
    · obtain ⟨s₁, hs₁, h⟩ := Option.bind_eq_some_iff.mp h
      cases h
      exact .releaseRefs ho ‹_› hs₁

/-! ## Operations -/

theorem startTxn_eq {x : ThreadId} (h : s.startTxn L x n = some s') :
    ∃ N tp, s.node n = some N ∧ N.proc = some tp ∧ s' = (s.setNode n { N with
      localStrongRefs := N.localStrongRefs + 1, tmpRefs := N.tmpRefs + 1 }).addTask (.thread x)
        [.checks x n tp] := by
  simp only [RefState.startTxn, RefState.getNodeRefsForTxn, bind, Option.bind_eq_some_iff] at h
  obtain ⟨⟨o, s₁⟩, ⟨N, hN, hs₁⟩, h⟩ := h
  split at hs₁
  · rename_i tp htp
    cases hs₁
    cases h
    exact ⟨N, tp, hN, htp, rfl⟩
  · cases hs₁
    cases h

/-- Every step is by one of the rules. -/
theorem exec_cases {op : RefOp} (h : s.exec L op = some s') : OpStep L s op s' := by
  cases op with
  | transaction x handle =>
    simp only [RefState.exec, bind, Option.bind_eq_some_iff, Option.guard_eq_some',
      exists_const] at h
    obtain ⟨hi, h⟩ := h
    split at h
    · rename_i hne
      simp only [Option.bind_eq_some_iff, Option.guard_eq_some', exists_const] at h
      obtain ⟨ho, r, hr, R, hR, h⟩ := h
      obtain ⟨N, tp, hN, htp, rfl⟩ := startTxn_eq h
      exact .transaction hi (.inl ⟨hne, ho, r, R, hr, hR, rfl⟩) hN htp
    · rename_i hne
      simp only [Option.bind_eq_some_iff, Option.guard_eq_some', exists_const] at h
      obtain ⟨hc, n, hn, h⟩ := h
      obtain ⟨N, tp, hN, htp, rfl⟩ := startTxn_eq h
      exact .transaction hi (.inr ⟨not_not.mp hne, hc, hn⟩) hN htp
  | reply x tp =>
    simp only [RefState.exec, bind, Option.bind_eq_some_iff, Option.guard_eq_some',
      exists_const] at h
    obtain ⟨hi, hne, h⟩ := h
    cases h
    exact .reply hi hne
  | object i o =>
    simp only [RefState.exec, bind, Option.bind_eq_some_iff] at h
    obtain ⟨⟨a, acts⟩, ht, h⟩ := h
    simp only at h
    split at h
    · split at h
      · rename_i hb
        split at h
        · obtain ⟨s₁, hs₁, h⟩ := Option.bind_eq_some_iff.mp h
          obtain ⟨N, hN, rfl⟩ := takeNode_eq hs₁
          cases h
          exact .binderFound ht hb ‹_› hN
        · cases h
          exact .binderNew ht hb ‹_›
      · rename_i hb
        rw [Bool.not_eq_true] at hb
        simp only [Option.bind_eq_some_iff, Option.guard_eq_some', exists_const] at h
        obtain ⟨ho, h⟩ := h
        split at h
        · simp only [Option.bind_eq_some_iff] at h
          obtain ⟨R, hR, s₁, hs₁, h⟩ := h
          obtain ⟨N, hN, rfl⟩ := takeNode_eq hs₁
          cases h
          exact .handle ht hb ho ‹_› hR hN
        · obtain ⟨B, hB, rfl⟩ := failTxn_eq h
          exact .fails (.inr (.inr ⟨o, rfl⟩)) ht hB
    · cases h
  | send i =>
    simp only [RefState.exec, bind, Option.bind_eq_some_iff] at h
    obtain ⟨⟨a, acts⟩, ht, h⟩ := h
    simp only at h
    split at h
    · obtain ⟨B, hB, h⟩ := Option.bind_eq_some_iff.mp h
      split at h
      · obtain ⟨B', hB', rfl⟩ := failTxn_eq h
        exact .fails (.inr (.inl rfl)) ht hB'
      · rename_i hd
        cases h
        refine .send ht hB fun hs => ?_
        rw [hs, Bool.true_and, Bool.not_eq_true] at hd
        exact hd
    · cases h
  | fail i =>
    simp only [RefState.exec, bind, Option.bind_eq_some_iff] at h
    obtain ⟨⟨a, acts⟩, ht, h⟩ := h
    simp only at h
    split at h
    · obtain ⟨B, hB, rfl⟩ := failTxn_eq h
      exact .fails (.inl rfl) ht hB
    · cases h
  | freeBuffer x b =>
    simp only [RefState.exec, bind, Option.bind_eq_some_iff, Option.guard_eq_some',
      exists_const] at h
    obtain ⟨hi, B, hB, hs, hp, h⟩ := h
    cases h
    exact .freeBuffer hi hB hs hp
  | refCommand x desc increment strong =>
    simp only [RefState.exec, bind, Option.bind_eq_some_iff, Option.guard_eq_some',
      exists_const] at h
    obtain ⟨hi, h⟩ := h
    split at h
    · rename_i hc
      rw [Bool.and_eq_true, beq_iff_eq] at hc
      obtain ⟨rfl, rfl⟩ := hc
      simp only [Option.bind_eq_some_iff, Option.guard_eq_some', exists_const] at h
      obtain ⟨hc, h⟩ := h
      split at h
      · cases h; exact .update hi
      · simp only [Option.bind_eq_some_iff, Option.guard_eq_some', exists_const] at h
        obtain ⟨N, hN, hp, h⟩ := h
        cases h
        exact .updateMgr hi hc ‹_› hN hp
    · cases h; exact .update hi
  | doneCommand x ptr cookie strong =>
    simp only [RefState.exec, bind, Option.bind_eq_some_iff, Option.guard_eq_some',
      exists_const] at h
    obtain ⟨hi, n, hn, s₁, hs₁, h⟩ := h
    obtain ⟨N, hN, rfl⟩ := takeNode_eq hs₁
    cases h
    exact .doneCommand hi hn hN
  | readNode x n =>
    simp only [RefState.exec, RefState.tellNode, bind, Option.bind_eq_some_iff,
      Option.guard_eq_some', exists_const] at h
    obtain ⟨hi, N, hN, hw, N', hN', hp, h⟩ := h
    rw [hN] at hN'
    cases hN'
    obtain ⟨l, hl⟩ : ∃ l, N.work = some l := by
      rw [Bool.or_eq_true, decide_eq_true_eq, decide_eq_true_eq] at hw
      rcases hw with hw | hw
      · exact ⟨_, hw⟩
      · exact ⟨_, hw⟩
    cases h
    split
    · exact .tell hi hN hl hp ‹_›
    · rename_i hw
      exact .tellFree hi hN hl hp (by simpa using hw)
  | nodeInfo x desc =>
    simp only [RefState.exec, bind, Option.bind_eq_some_iff, Option.guard_eq_some',
      exists_const] at h
    obtain ⟨hi, ho, r, hr, R, hR, s₁, hs₁, h⟩ := h
    obtain ⟨N, hN, rfl⟩ := takeNode_eq hs₁
    cases h
    exact .nodeInfo hi ho hr hR hN
  | showNode x n =>
    simp only [RefState.exec, bind, Option.bind_eq_some_iff, Option.guard_eq_some',
      exists_const] at h
    obtain ⟨hi, N, hN, hp, s₁, hs₁, h⟩ := h
    obtain ⟨N', hN', rfl⟩ := takeNode_eq hs₁
    rw [hN] at hN'
    cases hN'
    cases h
    refine .showNode hi hN fun p hp' => ?_
    simpa [hp'] using hp
  | setCtxMgr x ptr cookie =>
    simp only [RefState.exec, bind, Option.bind_eq_some_iff, Option.guard_eq_some',
      exists_const] at h
    obtain ⟨hi, hc, hm, ⟨n, s₁⟩, hs₁, h⟩ := h
    cases h
    exact .setCtxMgr hi hc hm hs₁
  | threadExit x =>
    simp only [RefState.exec, bind, Option.bind_eq_some_iff, Option.guard_eq_some',
      exists_const] at h
    obtain ⟨hi, h⟩ := h
    cases h
    exact .threadExit hi
  | close p =>
    simp only [RefState.exec, bind, Option.bind_eq_some_iff, Option.guard_eq_some',
      exists_const] at h
    obtain ⟨hc, hi, h⟩ := h
    cases h
    exact .close (by simpa using hc) hi
  | run i ok =>
    simp only [RefState.exec, bind, Option.bind_eq_some_iff] at h
    obtain ⟨⟨a, acts⟩, ht, h⟩ := h
    simp only at h
    split at h
    · cases h
    · exact .run ht (execAct_cases h)

end Redroid.Binder.Refs
