import Redroid.Binder.RefTables

/-!
# The operations in progress

What a task can have left to do, and which tasks there can be at the same time.

* `Shaped`: the acts of a task. A thread is in an operation whose acts do not depend on each other
  (`Act.isOp`), at the start of a transaction, or it builds a buffer (`Pre`: what stands before the
  next object); a worker is somewhere in `binder_deferred_release` (`Releasing`).
* `Shape`: all tasks are so; a thread with something to do is of a process that is not closed, and a
  closed process has one worker.
-/

namespace Redroid.Binder.Refs

open RefState

/-- The acts of a thread that do not depend on those around them. -/
def Act.isOp : Act → Bool
  | .incRef (.command _) .. | .newRef (.command _) .. | .incNewRef (.command _) .. | .decNode ..
  | .putNode _ | .releaseObjects .. | .cleanupRef .. | .freeBuf _ | .updateRef .. | .releaseWork _ =>
    true
  | _ => false

/-- The acts of the translation of an object. -/
def Act.translates : Act → Bool
  | .newNode .. | .translateBinder .. | .translateHandle .. | .incRef (.object _) ..
  | .newRef (.object _) .. | .incNewRef (.object _) .. => true
  | _ => false

/-- The acts that only `binder_deferred_release` has. -/
def Act.deferred : Act → Bool
  | .clearMgr _ | .setDead _ | .releaseThreads _ | .releaseNodes _ | .nodeRelease .. | .releaseRefs _ =>
    true
  | _ => false

/-- What the thread `x` does before it goes on with the buffer `b`. -/
inductive Pre (x : ThreadId) (b : BufId) : List Act → Prop
  | nil : Pre x b []
  | newNode (o : FlatObject) : Pre x b [.newNode x b o]
  | binder (n : NodeId) (o : FlatObject) : Pre x b [.translateBinder x b n o, .putNode n]
  | handle (n : NodeId) (strong : Bool) : Pre x b [.translateHandle x b n strong, .putNode n]
  | incRef (p : ProcId) (n : NodeId) (strong : Bool) (list : Option ThreadId) :
      Pre x b [.incRef (.object b) p n strong list, .putNode n]
  | newRef (p : ProcId) (n : NodeId) (strong : Bool) (list : Option ThreadId) :
      Pre x b [.newRef (.object b) p n strong list, .putNode n]
  | incNewRef (p : ProcId) (n : NodeId) (r : RefId) (strong : Bool) (list : Option ThreadId) :
      Pre x b [.incNewRef (.object b) p n r strong list, .putNode n]
  | putNode (n : NodeId) : Pre x b [.putNode n]

/-- What is left of `binder_deferred_release` of `p`. -/
inductive Releasing (p : ProcId) : List Act → Prop
  | start : Releasing p [.clearMgr p, .setDead p, .releaseThreads p, .releaseNodes p, .releaseRefs p,
      .releaseWork (.proc p)]
  | setDead : Releasing p [.setDead p, .releaseThreads p, .releaseNodes p, .releaseRefs p,
      .releaseWork (.proc p)]
  | threads : Releasing p [.releaseThreads p, .releaseNodes p, .releaseRefs p,
      .releaseWork (.proc p)]
  | nodes : Releasing p [.releaseNodes p, .releaseRefs p, .releaseWork (.proc p)]
  | node (n : NodeId) : Releasing p [.nodeRelease p n, .releaseNodes p, .releaseRefs p,
      .releaseWork (.proc p)]
  | putNode (n : NodeId) : Releasing p [.putNode n, .releaseNodes p, .releaseRefs p,
      .releaseWork (.proc p)]
  | refs : Releasing p [.releaseRefs p, .releaseWork (.proc p)]
  | work : Releasing p [.releaseWork (.proc p)]
  | ended : Releasing p []

/-- The acts of a task. -/
inductive Shaped (L : Layout) (t : Task) : Prop
  | ops {x : ThreadId} : t.actor = .thread x → (∀ act ∈ t.acts, act.isOp = true) → Shaped L t
  | checks {x : ThreadId} {n : NodeId} {tp : ProcId} : t.actor = .thread x →
      t.acts = [.checks x n tp] → Shaped L t
  | done {x : ThreadId} {n : NodeId} {strong : Bool} {cookie : Nat} : t.actor = .thread x →
      t.acts = [.done n strong cookie, .putNode n] → Shaped L t
  | becomes {x : ThreadId} {n : NodeId} : t.actor = .thread x →
      t.acts = [.becomeMgr (L.ctxOf (L.procOf x)) n, .putNode n] → Shaped L t
  | builds {x : ThreadId} {b : BufId} {target : Option NodeId} {pre : List Act} :
      t.actor = .thread x → Pre x b pre → t.acts = pre ++ [.build x b target] → Shaped L t
  | releases {p : ProcId} : t.actor = .worker p → Releasing p t.acts → Shaped L t

variable {L : Layout} {s s' : RefState} {n : NodeId} {p : ProcId} {b : BufId} {x : ThreadId}
  {i : Nat} {a : Actor} {act : Act} {rest : List Act} {op : RefOp} {o : FlatObject} {strong : Bool}
  {list : Option ThreadId} {target : Option NodeId}

theorem Act.isOp_of_translates (h : act.translates = true) : act.isOp = false := by
  unfold Act.translates at h
  split at h <;> first | rfl | cases h

theorem Act.isOp_of_deferred (h : act.deferred = true) : act.isOp = false := by
  unfold Act.deferred at h
  split at h <;> first | rfl | cases h

namespace Shaped

/-- An act of an operation. -/
theorem inOps (h : Shaped L ⟨a, act :: rest⟩) (hop : act.isOp = true)
    (hput : ∀ n, act ≠ .putNode n) (hwork : ∀ p, act ≠ .releaseWork (.proc p)) :
    ∃ x, a = .thread x ∧ ∀ act' ∈ rest, act'.isOp = true := by
  cases h with
  | ops ha hall => exact ⟨_, ha, fun act' hact' => hall act' (List.mem_cons_of_mem _ hact')⟩
  | checks _ hacts | done _ hacts | becomes _ hacts =>
    cases hacts
    cases hop
  | builds _ hp hacts =>
    cases hp <;> cases hacts <;> first | exact absurd rfl (hput _) | cases hop
  | releases _ hr =>
    cases hr <;> first | exact absurd rfl (hput _) | exact absurd rfl (hwork _) | cases hop

/-- An act of the translation of an object. -/
theorem inBuild (h : Shaped L ⟨a, act :: rest⟩) (hact : act.translates = true) :
    ∃ x b target pre, a = .thread x ∧ Pre x b (act :: pre) ∧ rest = pre ++ [.build x b target] := by
  cases h with
  | ops _ hall =>
    have := hall _ List.mem_cons_self
    rw [Act.isOp_of_translates hact] at this
    cases this
  | checks _ hacts | done _ hacts | becomes _ hacts =>
    cases hacts
    cases hact
  | builds ha hp hacts =>
    cases hp with
    | nil =>
      cases hacts
      cases hact
    | putNode =>
      cases hacts
      cases hact
    | newNode o =>
      cases hacts
      exact ⟨_, _, _, _, ha, .newNode o, rfl⟩
    | binder n o =>
      cases hacts
      exact ⟨_, _, _, _, ha, .binder n o, rfl⟩
    | handle n strong =>
      cases hacts
      exact ⟨_, _, _, _, ha, .handle n strong, rfl⟩
    | incRef p n strong list =>
      cases hacts
      exact ⟨_, _, _, _, ha, .incRef p n strong list, rfl⟩
    | newRef p n strong list =>
      cases hacts
      exact ⟨_, _, _, _, ha, .newRef p n strong list, rfl⟩
    | incNewRef p n r strong list =>
      cases hacts
      exact ⟨_, _, _, _, ha, .incNewRef p n r strong list, rfl⟩
  | releases _ hr => cases hr <;> cases hact

/-- An act of `binder_deferred_release`. -/
theorem inRelease (h : Shaped L ⟨a, act :: rest⟩) (hact : act.deferred = true) :
    ∃ p, a = .worker p ∧ Releasing p (act :: rest) := by
  cases h with
  | ops _ hall =>
    have := hall _ List.mem_cons_self
    rw [Act.isOp_of_deferred hact] at this
    cases this
  | checks _ hacts | done _ hacts | becomes _ hacts =>
    cases hacts
    cases hact
  | builds _ hp hacts => cases hp <;> cases hacts <;> cases hact
  | releases ha hr => exact ⟨_, ha, hr⟩

theorem ofDone {cookie : Nat} (h : Shaped L ⟨a, .done n strong cookie :: rest⟩) :
    ∃ x, a = .thread x ∧ rest = [.putNode n] := by
  cases h with
  | ops _ hall => cases hall _ List.mem_cons_self
  | checks _ hacts | becomes _ hacts => cases hacts
  | done ha hacts =>
    cases hacts
    exact ⟨_, ha, rfl⟩
  | builds _ hp hacts => cases hp <;> cases hacts
  | releases _ hr => cases hr

theorem ofBecomes {c : CtxId} (h : Shaped L ⟨a, .becomeMgr c n :: rest⟩) :
    ∃ x, a = .thread x ∧ c = L.ctxOf (L.procOf x) ∧ rest = [.putNode n] := by
  cases h with
  | ops _ hall => cases hall _ List.mem_cons_self
  | checks _ hacts | done _ hacts => cases hacts
  | becomes ha hacts =>
    cases hacts
    exact ⟨_, ha, rfl, rfl⟩
  | builds _ hp hacts => cases hp <;> cases hacts
  | releases _ hr => cases hr

/-- The head of the loop over the objects. -/
theorem build (h : Shaped L ⟨a, .build x b target :: rest⟩) : a = .thread x ∧ rest = [] := by
  cases h with
  | ops _ hall => cases hall _ List.mem_cons_self
  | checks _ hacts | done _ hacts | becomes _ hacts => cases hacts
  | builds ha hp hacts =>
    cases hp <;> cases hacts
    exact ⟨ha, rfl⟩
  | releases _ hr => cases hr

end Shaped

/-! ## The steps of one task -/

theorem releaseActs_isOp {B : Buffer} {failed : Bool} :
    ∀ act ∈ releaseActs b B failed, act.isOp = true := by
  intro act hact
  simp only [releaseActs, List.mem_append, List.mem_map, List.mem_cons, List.not_mem_nil,
    or_false] at hact
  rcases hact with ⟨m, -, rfl⟩ | rfl | hact | rfl
  · rfl
  · rfl
  · split at hact
    · obtain ⟨m, -, rfl⟩ := List.mem_map.mp hact
      rfl
    · cases hact
  · rfl

/-- The acts after a failure of the transaction. -/
theorem Shaped.failed {B : Buffer} : Shaped L ⟨.thread x, releaseActs b B true⟩ :=
  .ops rfl releaseActs_isOp

theorem Shaped.failedPut {B : Buffer} : Shaped L ⟨.thread x, .putNode n :: releaseActs b B true⟩ := by
  refine .ops rfl fun act hact => ?_
  rcases List.mem_cons.mp hact with rfl | hact
  · rfl
  · exact releaseActs_isOp act hact

/-- The end of `binder_inc_ref_for_node`, where `act` is one of its acts. -/
theorem IncDone.shaped {why : Why} {res : Option RefId} (h : IncDone s i a rest p n strong why res s')
    (hs : Shaped L ⟨a, act :: rest⟩)
    (hact : (∃ list, act = .incRef why p n strong list) ∨ (∃ list, act = .newRef why p n strong list) ∨
      ∃ r list, act = .incNewRef why p n r strong list) :
    ∃ acts, s'.tasks = s.tasks.set i ⟨a, acts⟩ ∧ Shaped L ⟨a, acts⟩ := by
  have object {b : BufId} (hw : why = .object b) :
      ∃ x target, a = .thread x ∧ rest = [.putNode n, .build x b target] := by
    subst hw
    rcases hact with ⟨list, rfl⟩ | ⟨list, rfl⟩ | ⟨r, list, rfl⟩
    · obtain ⟨x, b, target, pre, rfl, hp, rfl⟩ := hs.inBuild rfl
      cases hp
      exact ⟨x, target, rfl, rfl⟩
    · obtain ⟨x, b, target, pre, rfl, hp, rfl⟩ := hs.inBuild rfl
      cases hp
      exact ⟨x, target, rfl, rfl⟩
    · obtain ⟨x, b, target, pre, rfl, hp, rfl⟩ := hs.inBuild rfl
      cases hp
      exact ⟨x, target, rfl, rfl⟩
  have command {c : CtxId} (hw : why = .command c) :
      ∃ x, a = .thread x ∧ ∀ act' ∈ rest, act'.isOp = true := by
    subst hw
    rcases hact with ⟨list, rfl⟩ | ⟨list, rfl⟩ | ⟨r, list, rfl⟩ <;>
      exact hs.inOps rfl (by simp) (by simp)
  cases h with
  | object =>
    obtain ⟨x, target, rfl, rfl⟩ := object rfl
    exact ⟨_, rfl, .builds rfl (.putNode n) rfl⟩
  | failed =>
    obtain ⟨x, target, rfl, rfl⟩ := object rfl
    exact ⟨_, rfl, .failedPut⟩
  | command =>
    obtain ⟨x, rfl, hall⟩ := command rfl
    exact ⟨_, rfl, .ops rfl hall⟩
  | again =>
    obtain ⟨x, rfl, hall⟩ := command rfl
    refine ⟨_, rfl, .ops rfl fun act' hact' => ?_⟩
    rcases List.mem_cons.mp hact' with rfl | hact'
    · rfl
    · exact hall act' hact'

/-- A task stays in shape. -/
theorem ActStep.shaped (h : ActStep L s i a rest act s') (hs : Shaped L ⟨a, act :: rest⟩) :
    ∃ acts, s'.tasks = s.tasks.set i ⟨a, acts⟩ ∧ Shaped L ⟨a, acts⟩ := by
  have env {s₁ : RefState} {acts : List Act} (h : s₁.env = s.env) (ha : Shaped L ⟨a, acts⟩) :
      ∃ acts', (s₁.setTask i a acts).tasks = s.tasks.set i ⟨a, acts'⟩ ∧ Shaped L ⟨a, acts'⟩ :=
    ⟨acts, by rw [← env_tasks h]; rfl, ha⟩
  -- the rest of an operation, with more acts before it
  have ops (new : List Act) (hnew : ∀ act' ∈ new, act'.isOp = true)
      (hop : act.isOp = true) (hput : ∀ n, act ≠ .putNode n)
      (hwork : ∀ p, act ≠ .releaseWork (.proc p)) : Shaped L ⟨a, new ++ rest⟩ := by
    obtain ⟨x, rfl, hall⟩ := hs.inOps hop hput hwork
    refine .ops rfl fun act' hact' => ?_
    rcases List.mem_append.mp hact' with hact' | hact'
    · exact hnew act' hact'
    · exact hall act' hact'
  have done (hop : act.isOp = true) (hput : ∀ n, act ≠ .putNode n)
      (hwork : ∀ p, act ≠ .releaseWork (.proc p)) : Shaped L ⟨a, rest⟩ := by
    obtain ⟨x, rfl, hall⟩ := hs.inOps hop hput hwork
    exact .ops rfl hall
  have checks {x n tp} (hact : act = .checks x n tp) : a = .thread x ∧ rest = [] := by
    subst hact
    cases hs with
    | ops _ hall => cases hall _ List.mem_cons_self
    | checks ha hacts =>
      cases hacts
      exact ⟨ha, rfl⟩
    | done _ hacts | becomes _ hacts => cases hacts
    | builds _ hp hacts => cases hp <;> cases hacts
    | releases _ hr => cases hr
  cases h with
  | checksFail =>
    obtain ⟨rfl, rfl⟩ := checks rfl
    exact ⟨_, rfl, .ops rfl (by simp [Act.isOp])⟩
  | checks =>
    obtain ⟨rfl, rfl⟩ := checks rfl
    exact ⟨_, rfl, .builds rfl .nil rfl⟩
  | newNodeFail =>
    obtain ⟨x, b, target, pre, rfl, hp, rfl⟩ := hs.inBuild rfl
    exact ⟨_, rfl, .failed⟩
  | translateBinderFail | translateHandleFail =>
    obtain ⟨x, b, target, pre, rfl, hp, rfl⟩ := hs.inBuild rfl
    exact ⟨_, rfl, .failedPut⟩
  | newNode hn =>
    obtain ⟨x, b, target, pre, rfl, hp, rfl⟩ := hs.inBuild rfl
    cases hp
    exact env (initNode_env hn) (.builds rfl (.binder _ _) rfl)
  | translateBinder =>
    obtain ⟨x, b, target, pre, rfl, hp, rfl⟩ := hs.inBuild rfl
    cases hp
    exact ⟨_, rfl, .builds rfl (.incRef _ _ _ _) rfl⟩
  | translateOwn =>
    obtain ⟨x, b, target, pre, rfl, hp, rfl⟩ := hs.inBuild rfl
    cases hp
    exact ⟨_, rfl, .builds rfl (.putNode _) rfl⟩
  | translateHandle =>
    obtain ⟨x, b, target, pre, rfl, hp, rfl⟩ := hs.inBuild rfl
    cases hp
    exact ⟨_, rfl, .builds rfl (.incRef _ _ _ _) rfl⟩
  | incFound hact _ _ hinc hdone =>
    rw [← env_tasks (incRef_env hinc)]
    refine hdone.shaped hs ?_
    rcases hact with rfl | rfl
    · exact .inl ⟨_, rfl⟩
    · exact .inr (.inl ⟨_, rfl⟩)
  | @incAlloc why =>
    cases why with
    | object =>
      obtain ⟨x, b, target, pre, rfl, hp, rfl⟩ := hs.inBuild rfl
      cases hp
      exact ⟨_, rfl, .builds rfl (.newRef _ _ _ _) rfl⟩
    | command =>
      refine ⟨_, rfl, ops [_] ?_ rfl (by simp) (by simp)⟩
      simp [Act.isOp]
  | incNoMem _ _ hdone => exact hdone.shaped hs (.inl ⟨_, rfl⟩)
  | @addRef why _ _ _ _ _ _ _ hadd =>
    cases why with
    | object =>
      obtain ⟨x, b, target, pre, rfl, hp, rfl⟩ := hs.inBuild rfl
      cases hp
      exact env (addRef_env hadd) (.builds rfl (.incNewRef _ _ _ _ _) rfl)
    | command =>
      refine env (addRef_env hadd) (ops [_] ?_ rfl (by simp) (by simp))
      simp [Act.isOp]
  | incNew hinc hdone =>
    rw [← env_tasks (incRef_env hinc)]
    exact hdone.shaped hs (.inr (.inr ⟨_, _, rfl⟩))
  | decNode h => exact env (decNode_env h) (done rfl (by simp) (by simp))
  | putNode h =>
    refine env (putNode_env h) ?_
    cases hs with
    | ops ha hall => exact .ops ha fun act' hact' => hall act' (List.mem_cons_of_mem _ hact')
    | checks _ hacts | done _ hacts | becomes _ hacts => cases hacts
    | builds ha hp hacts =>
      cases hp <;> cases hacts
      exact .builds ha .nil rfl
    | releases ha hr =>
      cases hr
      exact .releases ha .nodes
  | releaseEnd => exact ⟨_, rfl, done rfl (by simp) (by simp)⟩
  | releaseSkip =>
    exact ⟨_, rfl, ops [_] (by simp [Act.isOp]) rfl (by simp) (by simp)⟩
  | releaseBinder =>
    exact ⟨_, rfl, ops [_, _, _] (by simp [Act.isOp]) rfl (by simp) (by simp)⟩
  | @releaseHandle p o os r last s₁ _ _ _ h =>
    refine env (decRef_env h) ?_
    cases last with
    | false => exact ops [_] (by simp [Act.isOp]) rfl (by simp) (by simp)
    | true => exact ops [_, _] (by simp [Act.isOp]) rfl (by simp) (by simp)
  | cleanupRef h => exact env (cleanupRef_env h) (done rfl (by simp) (by simp))
  | freeBuf => exact ⟨_, rfl, done rfl (by simp) (by simp)⟩
  | updateNone => exact ⟨_, rfl, done rfl (by simp) (by simp)⟩
  | updateInc _ _ h => exact env (incRef_env h) (done rfl (by simp) (by simp))
  | @updateDec p desc strong r last s₁ _ _ h =>
    refine env (decRef_env h) ?_
    cases last with
    | false => exact done rfl (by simp) (by simp)
    | true => exact ops [_] (by simp [Act.isOp]) rfl (by simp) (by simp)
  | doneBad =>
    obtain ⟨x, rfl, rfl⟩ := hs.ofDone
    exact ⟨_, rfl, .ops rfl (by simp [Act.isOp])⟩
  | @done _ _ _ _ s₁ _ _ h =>
    have htasks := env_tasks (decNilocked_env h)
    obtain ⟨x, rfl, rfl⟩ := hs.ofDone
    exact ⟨_, congrArg (List.set · i _) htasks, .ops rfl (by simp [Act.isOp])⟩
  | becomeMgr =>
    obtain ⟨x, rfl, -, rfl⟩ := hs.ofBecomes
    exact ⟨_, rfl, .ops rfl (by simp [Act.isOp])⟩
  | dropWork hact =>
    exact ⟨_, rfl, hs⟩
  | dropEnd hact =>
    refine ⟨_, rfl, ?_⟩
    cases hs with
    | ops ha hall => exact .ops ha fun act' hact' => hall act' (List.mem_cons_of_mem _ hact')
    | checks _ hacts | done _ hacts | becomes _ hacts =>
      cases hacts
      rcases hact with ⟨l, hl⟩ | ⟨p, hp⟩
      · cases hl
      · cases hp
    | builds _ hp hacts => cases hp <;> cases hacts <;> rcases hact with ⟨l, hl⟩ | ⟨p, hp⟩ <;> contradiction
    | releases ha hr =>
      rcases hact with ⟨l, rfl⟩ | ⟨p, rfl⟩
      · cases hr
        exact .releases ha .ended
      · cases hr
        exact .releases ha .nodes
  | clearMgr | clearNone | setDead | releaseNodesEnd | releaseNodes | nodeReleaseFree | nodeRelease
  | releaseRefsEnd =>
    obtain ⟨p, rfl, hr⟩ := hs.inRelease rfl
    cases hr
    exact ⟨_, rfl, .releases rfl (by constructor)⟩
  | releaseRefs _ _ h => exact env (cleanupRef_env h) hs

/-! ## All tasks -/

/-- The tasks are in shape; only threads of a process that is not closed have something to do, and a
closed process has one worker. -/
structure Shape (L : Layout) (s : RefState) : Prop where
  task : ∀ t ∈ s.tasks, Shaped L t
  live : ∀ x acts, ⟨.thread x, acts⟩ ∈ s.tasks → acts ≠ [] → s.closed (L.procOf x) = false
  worker : ∀ p acts, ⟨.worker p, acts⟩ ∈ s.tasks → s.closed p = true
  oneWorker : ∀ (i j : Nat) (p : ProcId) (acts acts' : List Act),
    s.tasks[i]? = some ⟨.worker p, acts⟩ → s.tasks[j]? = some ⟨.worker p, acts'⟩ → i = j

theorem shape_start : Shape L start := by
  constructor <;> simp [start]

namespace Shape

end Shape

/-- A task does not close a process. -/
theorem ActStep.closed (h : ActStep L s i a rest act s') : s'.closed = s.closed := by
  have inc {s₁ s₂ : RefState} {p n strong why res} (h : s₁.env = s.env)
      (hd : IncDone s₁ i a rest p n strong why res s₂) : s₂.closed = s.closed := by
    cases hd with
    | object | failed | command | again => exact (env_closed h :)
  cases h with
  | checksFail | checks | newNodeFail | translateBinderFail | translateBinder | translateHandleFail
  | translateOwn | translateHandle | incAlloc | releaseEnd | releaseSkip | releaseBinder | freeBuf
  | updateNone | doneBad | becomeMgr | dropWork | dropEnd | clearMgr | clearNone | setDead
  | releaseNodesEnd | releaseNodes | nodeReleaseFree | nodeRelease | releaseRefsEnd => rfl
  | newNode h => exact (env_closed (initNode_env h) :)
  | incFound _ _ _ hinc hdone | incNew hinc hdone => exact inc (incRef_env hinc) hdone
  | incNoMem _ _ hdone => exact inc rfl hdone
  | addRef _ _ h => exact (env_closed (addRef_env h) :)
  | decNode h => exact (env_closed (decNode_env h) :)
  | putNode h => exact (env_closed (putNode_env h) :)
  | releaseHandle _ _ _ h | updateDec _ _ h => exact (env_closed (decRef_env h) :)
  | cleanupRef h | releaseRefs _ _ h => exact (env_closed (cleanupRef_env h) :)
  | updateInc _ _ h => exact (env_closed (incRef_env h) :)
  | done _ _ h =>
    have henv := env_closed (decNilocked_env h)
    exact henv

namespace Shape

/-- One task goes on. -/
theorem setTask {acts : List Act} (h : Shape L s) (ht : s.tasks[i]? = some ⟨a, act :: rest⟩)
    (hs : s'.tasks = s.tasks.set i ⟨a, acts⟩) (hc : s'.closed = s.closed)
    (hacts : Shaped L ⟨a, acts⟩) : Shape L s' := by
  have hmem := List.mem_of_getElem? ht
  have old {t : Task} (ht' : t ∈ s'.tasks) : t = ⟨a, acts⟩ ∨ t ∈ s.tasks := by
    rw [hs] at ht'
    exact (List.mem_or_eq_of_mem_set ht').symm
  refine ⟨?_, ?_, ?_, ?_⟩
  · intro t ht'
    rcases old ht' with rfl | ht'
    · exact hacts
    · exact h.task t ht'
  · intro x acts' hx hne
    rw [hc]
    rcases old hx with he | hx
    · cases he
      exact h.live x _ hmem (by simp)
    · exact h.live x acts' hx hne
  · intro p acts' hp
    rw [hc]
    rcases old hp with he | hp
    · cases he
      exact h.worker p _ hmem
    · exact h.worker p acts' hp
  · intro j k p acts₁ acts₂ hj hk
    have find {j : Nat} {acts₁ : List Act} (hj : s'.tasks[j]? = some ⟨.worker p, acts₁⟩) :
        ∃ acts₂, s.tasks[j]? = some ⟨.worker p, acts₂⟩ := by
      rw [hs] at hj
      by_cases hij : i = j
      · subst hij
        rw [List.getElem?_set_self (List.getElem?_eq_some_iff.mp ht).1] at hj
        cases hj
        exact ⟨_, ht⟩
      · rw [List.getElem?_set_ne hij] at hj
        exact ⟨_, hj⟩
    obtain ⟨_, hj'⟩ := find hj
    obtain ⟨_, hk'⟩ := find hk
    exact h.oneWorker j k p _ _ hj' hk'

/-- A thread starts an operation. -/
theorem addTask {acts : List Act} (h : Shape L s) (hs : s'.tasks = s.tasks ++ [⟨.thread x, acts⟩])
    (hc : s'.closed = s.closed) (hi : s.idle L x = true) (hacts : Shaped L ⟨.thread x, acts⟩) :
    Shape L s' := by
  have old {t : Task} (ht' : t ∈ s'.tasks) : t ∈ s.tasks ∨ t = ⟨.thread x, acts⟩ := by
    rw [hs] at ht'
    simpa using ht'
  refine ⟨?_, ?_, ?_, ?_⟩
  · intro t ht'
    rcases old ht' with ht' | rfl
    · exact h.task t ht'
    · exact hacts
  · intro y acts' hy hne
    rw [hc]
    rcases old hy with hy | he
    · exact h.live y acts' hy hne
    · cases he
      simp only [RefState.idle, Bool.and_eq_true, Bool.not_eq_true'] at hi
      exact hi.1.1
  · intro p acts' hp
    rw [hc]
    rcases old hp with hp | he
    · exact h.worker p acts' hp
    · cases he
  · intro j k p acts₁ acts₂ hj hk
    have find {j : Nat} {acts₁ : List Act} (hj : s'.tasks[j]? = some ⟨.worker p, acts₁⟩) :
        s.tasks[j]? = some ⟨.worker p, acts₁⟩ := by
      rw [hs, List.getElem?_append] at hj
      split at hj
      · exact hj
      · rw [List.getElem?_singleton] at hj
        split at hj <;> cases hj
    exact h.oneWorker j k p _ _ (find hj) (find hk)

/-- A process is closed. -/
theorem close (h : Shape L s) (hc : s.closed p = false) (hi : s.procIdle L p = true) :
    Shape L ((s.setClosed p).addTask (.worker p) [.clearMgr p, .setDead p, .releaseThreads p,
      .releaseNodes p, .releaseRefs p, .releaseWork (.proc p)]) := by
  have old {t : Task} (ht' : t ∈ s.tasks ++ [⟨.worker p, [.clearMgr p, .setDead p,
      .releaseThreads p, .releaseNodes p, .releaseRefs p, .releaseWork (.proc p)]⟩]) :
      t ∈ s.tasks ∨ t = ⟨.worker p, [.clearMgr p, .setDead p, .releaseThreads p, .releaseNodes p,
        .releaseRefs p, .releaseWork (.proc p)]⟩ := by
    simpa using ht'
  refine ⟨?_, ?_, ?_, ?_⟩
  · intro t ht'
    rcases old ht' with ht' | rfl
    · exact h.task t ht'
    · exact .releases rfl .start
  · intro y acts' hy hne
    rcases old hy with hy | he
    · -- no thread of the process is in an operation
      have hidle := List.all_eq_true.mp hi _ hy
      simp only [Bool.or_eq_true, List.isEmpty_iff, hne, false_or, bne_iff_ne] at hidle
      show Function.update s.closed p true (L.procOf y) = false
      rw [Function.update_of_ne hidle]
      exact h.live y acts' hy hne
    · cases he
  · intro q acts' hq
    show Function.update s.closed p true q = true
    rcases old hq with hq | he
    · rw [Function.update_apply]
      split
      · rfl
      · exact h.worker q acts' hq
    · cases he
      exact Function.update_self ..
  · intro j k q acts₁ acts₂ hj hk
    have find {j : Nat} {acts₁ : List Act}
        (hj : (s.tasks ++ [⟨.worker p, [.clearMgr p, .setDead p, .releaseThreads p, .releaseNodes p,
          .releaseRefs p, .releaseWork (.proc p)]⟩])[j]? = some ⟨.worker q, acts₁⟩) :
        s.tasks[j]? = some ⟨.worker q, acts₁⟩ ∨ (j = s.tasks.length ∧ q = p) := by
      rw [List.getElem?_append] at hj
      split at hj
      · exact .inl hj
      · rw [List.getElem?_singleton] at hj
        split at hj
        · cases hj
          exact .inr ⟨by omega, rfl⟩
        · cases hj
    have no {m : Nat} {acts₁ : List Act} (hm : s.tasks[m]? = some ⟨.worker q, acts₁⟩) : q ≠ p := by
      rintro rfl
      have := h.worker q acts₁ (List.mem_of_getElem? hm)
      rw [hc] at this
      cases this
    rcases find hj with hj | ⟨rfl, hq⟩
    · rcases find hk with hk | ⟨rfl, hq⟩
      · exact h.oneWorker j k q _ _ hj hk
      · exact absurd hq (no hj)
    · rcases find hk with hk | ⟨rfl, -⟩
      · exact absurd hq (no hk)
      · rfl

theorem exec (h : Shape L s) (he : s.exec L op = some s') : Shape L s' := by
  have build {i : Nat} {a : Actor} {x : ThreadId} {b : BufId} {target : Option NodeId}
      {rest : List Act} (ht : s.tasks[i]? = some ⟨a, .build x b target :: rest⟩) :
      a = .thread x ∧ rest = [] := (h.task _ (List.mem_of_getElem? ht)).build
  cases exec_cases he with
  | transaction hi => exact h.addTask rfl rfl hi (.checks rfl rfl)
  | reply hi => exact h.addTask rfl rfl hi (.builds rfl .nil rfl)
  | binderFound ht =>
    obtain ⟨rfl, rfl⟩ := build ht
    exact h.setTask ht rfl rfl (.builds rfl (.binder _ _) rfl)
  | binderNew ht =>
    obtain ⟨rfl, rfl⟩ := build ht
    exact h.setTask ht rfl rfl (.builds rfl (.newNode _) rfl)
  | handle ht =>
    obtain ⟨rfl, rfl⟩ := build ht
    exact h.setTask ht rfl rfl (.builds rfl (.handle _ _) rfl)
  | fails _ ht =>
    obtain ⟨rfl, rfl⟩ := build ht
    exact h.setTask ht rfl rfl .failed
  | @send _ _ _ _ target _ _ ht =>
    obtain ⟨rfl, rfl⟩ := build ht
    refine h.setTask ht rfl rfl (.ops rfl ?_)
    cases target <;> simp [Act.isOp]
  | freeBuffer hi => exact h.addTask rfl rfl hi (.ops rfl releaseActs_isOp)
  | doneCommand hi => exact h.addTask rfl rfl hi (.done rfl rfl)
  | update hi | updateMgr hi | nodeInfo hi | showNode hi | threadExit hi =>
    exact h.addTask rfl rfl hi (.ops rfl (by simp [Act.isOp]))
  | tell | tellFree => exact ⟨h.task, h.live, h.worker, h.oneWorker⟩
  | @setCtxMgr x ptr cookie n s₁ hi _ _ hn =>
    have henv := initNode_env hn
    have htasks : (s₁.addTask (.thread x) [.becomeMgr (L.ctxOf (L.procOf x)) n, .putNode n]).tasks =
        s.tasks ++ [⟨.thread x, [.becomeMgr (L.ctxOf (L.procOf x)) n, .putNode n]⟩] := by
      rw [← env_tasks henv]
      rfl
    exact h.addTask htasks (env_closed henv :) hi (.becomes rfl rfl)
  | close hc hi => exact h.close hc hi
  | run ht hact =>
    obtain ⟨acts, hacts, hs⟩ := hact.shaped (h.task _ (List.mem_of_getElem? ht))
    exact h.setTask ht hacts hact.closed hs

end Shape

end Redroid.Binder.Refs
