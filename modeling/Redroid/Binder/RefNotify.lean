import Redroid.Binder.RefGrants

/-!
# What the owner of a node is still to be told

* `Callers`: for which thread a task sends nodes, which lists are drained, and that a dead thread does
  nothing but drain its own.
* `Untouched`: a reference that is being created has no count.
* `Node.Settled`: the flags of a node say what its counters say. `Told`: so they do for the nodes of
  the open processes that are on no list, and a node is on a list of its owner.
* `owner_told`: a node of an open process whose flags are not right is on a list of its owner, unless
  one of three things has happened (`keepsNotice`).
-/

namespace Redroid.Binder.Refs

open RefState

/-- The act drops the work on the list `l`. -/
def Act.drops (L : Layout) (l : WorkList) : Act → Bool
  | .releaseWork l' => l == l'
  | .releaseThreads p => RefState.threadOf L p l
  | _ => false

/-- The act drops the work on some lists. -/
def Act.drains : Act → Bool
  | .releaseWork _ | .releaseThreads _ => true
  | _ => false

/-- The thread on whose list the act puts the node that it sends. -/
def Act.sender : Act → Option ThreadId
  | .newNode x .. | .translateBinder x .. => some x
  | .incRef _ _ _ _ list | .newRef _ _ _ _ list | .incNewRef _ _ _ _ _ list => list
  | _ => none

/-- Nobody reads the list `l` any more. -/
def Gone (L : Layout) (s : RefState) : WorkList → Prop
  | .proc p => s.closed p = true
  | .thread x => s.threadDead x = true ∨ s.closed (L.procOf x) = true

/-- Who does what the tasks do. -/
structure Callers (L : Layout) (s : RefState) : Prop where
  senders : ∀ (j : Nat) t, s.tasks[j]? = some t → ∀ act ∈ t.acts, ∀ x, act.sender = some x →
    t.actor = .thread x
  drains : ∀ t ∈ s.tasks, ∀ act ∈ t.acts, ∀ l, act.drops L l = true → Gone L s l
  alive : ∀ t ∈ s.tasks, ∀ x, t.actor = .thread x → t.acts ≠ [] →
    s.threadDead x = false ∨ t.acts = [.releaseWork (.thread x)]

variable {L : Layout} {s s' s₁ : RefState} {m n : NodeId} {N N' : Node} {p q : ProcId} {b : BufId}
  {B : Buffer} {x : ThreadId} {r : RefId} {R R' : Ref} {i j : Nat} {a : Actor} {act act' : Act}
  {rest acts : List Act} {op : RefOp} {strong internal : Bool} {list : Option ThreadId}
  {l : WorkList}

/-! ## The threads -/

theorem releaseActs_drains {failed : Bool} : ∀ act ∈ releaseActs b B failed, act.drains = false := by
  intro act hact
  simp only [releaseActs, List.mem_append, List.mem_map, List.mem_cons, List.not_mem_nil,
    or_false] at hact
  rcases hact with ⟨m, -, rfl⟩ | rfl | hact | rfl
  · rfl
  · rfl
  · split at hact
    · obtain ⟨m, -, rfl⟩ := List.mem_map.mp hact
      rfl
    · cases hact
  · rfl

theorem IncDone.drains {why : Why} {res : Option RefId} (h : IncDone s i a rest p n strong why res s') :
    ∃ acts, s'.tasks = s.tasks.set i ⟨a, acts⟩ ∧ ∀ act' ∈ acts, act'.drains = true → act' ∈ rest := by
  cases h with
  | object | command => exact ⟨_, rfl, fun _ h _ => h⟩
  | again => exact ⟨_, rfl, by simp +contextual [Act.drains]⟩
  | failed =>
    refine ⟨_, rfl, fun act' hact hd => ?_⟩
    rcases List.mem_cons.mp hact with rfl | hact
    · cases hd
    · rw [releaseActs_drains act' hact] at hd
      cases hd

/-- A task goes on with no other drain than it has. -/
theorem ActStep.drains (h : ActStep L s i a rest act s') :
    ∃ acts, s'.tasks = s.tasks.set i ⟨a, acts⟩ ∧
      ∀ act' ∈ acts, act'.drains = true → act' ∈ act :: rest := by
  have env {s₁ : RefState} {acts : List Act} (h : s₁.env = s.env)
      (hacts : ∀ act' ∈ acts, act'.drains = true → act' ∈ act :: rest) :
      ∃ acts', (s₁.setTask i a acts).tasks = s.tasks.set i ⟨a, acts'⟩ ∧
        ∀ act' ∈ acts', act'.drains = true → act' ∈ act :: rest :=
    ⟨acts, by rw [← env_tasks h]; rfl, hacts⟩
  have keep : ∀ act' ∈ rest, act'.drains = true → act' ∈ act :: rest :=
    fun _ h _ => List.mem_cons_of_mem _ h
  have released {b : BufId} {B : Buffer} (pre : List Act) (hpre : ∀ act' ∈ pre, act'.drains = false) :
      ∀ act' ∈ pre ++ releaseActs b B true, act'.drains = true → act' ∈ act :: rest := by
    intro act' hact hd
    have : act'.drains = false := by
      rcases List.mem_append.mp hact with hact | hact
      · exact hpre act' hact
      · exact releaseActs_drains act' hact
    rw [this] at hd
    cases hd
  have done {s₁ : RefState} {p n strong why res} (h : s₁.env = s.env)
      (hd : IncDone s₁ i a rest p n strong why res s') : ∃ acts, s'.tasks = s.tasks.set i ⟨a, acts⟩ ∧
        ∀ act' ∈ acts, act'.drains = true → act' ∈ act :: rest := by
    obtain ⟨acts, hs, hacts⟩ := hd.drains
    rw [env_tasks h] at hs
    exact ⟨acts, hs, fun act' hact hd => List.mem_cons_of_mem _ (hacts act' hact hd)⟩
  cases h with
  | newNodeFail => exact ⟨_, rfl, released [] (by simp)⟩
  | translateBinderFail | translateHandleFail => exact ⟨_, rfl, released [_] (by simp [Act.drains])⟩
  | checksFail | checks | translateBinder | translateOwn | translateHandle | incAlloc | releaseEnd
  | releaseSkip | releaseBinder | freeBuf | updateNone | doneBad | becomeMgr | dropWork | dropEnd
  | clearMgr | clearNone | setDead | releaseNodesEnd | releaseNodes | nodeReleaseFree | nodeRelease
  | releaseRefsEnd => exact ⟨_, rfl, by simp +contextual [Act.drains]⟩
  | newNode h => exact env (initNode_env h) (by simp +contextual [Act.drains])
  | incFound _ _ _ hinc hdone | incNew hinc hdone => exact done (incRef_env hinc) hdone
  | incNoMem _ _ hdone => exact done rfl hdone
  | addRef _ _ h => exact env (addRef_env h) (by simp +contextual [Act.drains])
  | decNode h => exact env (decNode_env h) keep
  | putNode h => exact env (putNode_env h) keep
  | @releaseHandle _ _ _ _ last _ _ _ _ h | @updateDec _ _ _ _ last _ _ _ h =>
    refine env (decRef_env h) ?_
    cases last <;> simp +contextual [Act.drains]
  | cleanupRef h => exact env (cleanupRef_env h) keep
  | releaseRefs _ _ h => exact env (cleanupRef_env h) (by simp +contextual [Act.drains])
  | updateInc _ _ h => exact env (incRef_env h) keep
  | @done _ _ _ _ s₁ _ _ h =>
    have htasks := env_tasks (decNilocked_env h)
    exact ⟨rest, congrArg (List.set · i _) htasks, keep⟩

theorem ActStep.threadDead (h : ActStep L s i a rest act s') : s'.threadDead = s.threadDead := by
  have env {s₁ s₂ : RefState} (h : s₁.env = s₂.env) : s₁.threadDead = s₂.threadDead := by
    simp only [RefState.env, Prod.mk.injEq] at h
    exact h.2.2.2.1
  have inc {s₁ s₂ : RefState} {p n strong why res} (h : s₁.env = s.env)
      (hd : IncDone s₁ i a rest p n strong why res s₂) : s₂.threadDead = s.threadDead := by
    cases hd with
    | object | failed | command | again => exact (env h :)
  cases h with
  | checksFail | checks | newNodeFail | translateBinderFail | translateBinder | translateHandleFail
  | translateOwn | translateHandle | incAlloc | releaseEnd | releaseSkip | releaseBinder | freeBuf
  | updateNone | doneBad | becomeMgr | dropWork | dropEnd | clearMgr | clearNone | setDead
  | releaseNodesEnd | releaseNodes | nodeReleaseFree | nodeRelease | releaseRefsEnd => rfl
  | newNode h => exact (env (initNode_env h) :)
  | incFound _ _ _ hinc hdone | incNew hinc hdone => exact inc (incRef_env hinc) hdone
  | incNoMem _ _ hdone => exact inc rfl hdone
  | addRef _ _ h => exact (env (addRef_env h) :)
  | decNode h => exact (env (decNode_env h) :)
  | putNode h => exact (env (putNode_env h) :)
  | releaseHandle _ _ _ h | updateDec _ _ h => exact (env (decRef_env h) :)
  | cleanupRef h | releaseRefs _ _ h => exact (env (cleanupRef_env h) :)
  | updateInc _ _ h => exact (env (incRef_env h) :)
  | done _ _ h =>
    have henv := env (decNilocked_env h)
    exact henv

/-- Only `BINDER_THREAD_EXIT` ends a thread. -/
theorem exec_threadDead (he : s.exec L op = some s') : s'.threadDead = s.threadDead ∨
    ∃ x, op = .threadExit x ∧ s.idle L x = true ∧
      s'.threadDead = Function.update s.threadDead x true := by
  cases exec_cases he with
  | setCtxMgr _ _ _ hn =>
    have henv := initNode_env hn
    simp only [RefState.env, Prod.mk.injEq] at henv
    exact .inl henv.2.2.2.1
  | @threadExit x hidle => exact .inr ⟨x, rfl, hidle, rfl⟩
  | run _ h => exact .inl h.threadDead
  | _ => exact .inl rfl

theorem Gone.exec (h : Gone L s l) (he : s.exec L op = some s') : Gone L s' l := by
  have hclosed {p : ProcId} (hp : s.closed p = true) : s'.closed p = true := by
    rcases exec_closes he with hc | ⟨q, -, hc⟩
    · rwa [hc]
    · rw [hc, Function.update_apply]
      split
      · rfl
      · exact hp
  cases l with
  | proc p => exact hclosed h
  | thread x =>
    refine h.imp (fun hx => ?_) hclosed
    rcases exec_threadDead he with hd | ⟨y, -, -, hd⟩
    · rwa [hd]
    · rw [hd, Function.update_apply]
      split
      · rfl
      · exact hx

/-- A drain is an old one, or that of an exit or of a release. -/
theorem exec_drains (he : s.exec L op = some s') {t : Task} (ht : t ∈ s'.tasks) (hact : act ∈ t.acts)
    (hd : act.drains = true) : (∃ t' ∈ s.tasks, act ∈ t'.acts) ∨
      (∃ x, op = .threadExit x ∧ act = .releaseWork (.thread x)) ∨
      ∃ p, op = .close p ∧ (act = .releaseThreads p ∨ act = .releaseWork (.proc p)) := by
  have old {t' : Task} {i : Nat} {a : Actor} {acts : List Act} (ht' : t' ∈ s.tasks)
    (hacts : ∀ act ∈ acts, act.drains = true →
      act ∈ t'.acts) (hi : s'.tasks = s.tasks.set i ⟨a, acts⟩) : ∃ t' ∈ s.tasks, act ∈ t'.acts := by
    rw [hi] at ht
    rcases List.mem_or_eq_of_mem_set ht with ht | rfl
    · exact ⟨t, ht, hact⟩
    · exact ⟨t', ht', hacts act hact hd⟩
  have add {a : Actor} {acts : List Act} (hs : s'.tasks = s.tasks ++ [⟨a, acts⟩])
      (hacts : ∀ act ∈ acts, act.drains = false) : ∃ t' ∈ s.tasks, act ∈ t'.acts := by
    rw [hs, List.mem_append, List.mem_singleton] at ht
    rcases ht with ht | rfl
    · exact ⟨t, ht, hact⟩
    · rw [hacts act hact] at hd
      cases hd
  cases exec_cases he with
  | transaction | reply | update | updateMgr | doneCommand | nodeInfo | showNode =>
    exact .inl (add rfl (by simp [Act.drains]))
  | freeBuffer => exact .inl (add rfl releaseActs_drains)
  | setCtxMgr _ _ _ hn =>
    exact .inl (add (by rw [← env_tasks (initNode_env hn)]; rfl) (by simp [Act.drains]))
  | tell | tellFree => exact .inl ⟨t, ht, hact⟩
  | binderFound hi | binderNew hi | handle hi =>
    exact .inl (old (List.mem_of_getElem? hi) (by simp +contextual [Act.drains]) rfl)
  | fails _ hi =>
    refine .inl (old (List.mem_of_getElem? hi) (fun act' hact' hd' => ?_) rfl)
    rw [releaseActs_drains act' hact'] at hd'
    cases hd'
  | send hi =>
    refine .inl (old (List.mem_of_getElem? hi) (fun act' hact' hd' => ?_) rfl)
    rcases List.mem_append.mp hact' with hact' | hact'
    · obtain ⟨k, -, rfl⟩ := List.mem_map.mp hact'
      cases hd'
    · exact List.mem_cons_of_mem _ hact'
  | @threadExit x =>
    simp only [RefState.addTask, RefState.exitThread, List.mem_append, List.mem_singleton] at ht
    rcases ht with ht | rfl
    · exact .inl ⟨t, ht, hact⟩
    · exact .inr (.inl ⟨x, rfl, List.mem_singleton.mp hact⟩)
  | @close p =>
    simp only [RefState.addTask, RefState.setClosed, List.mem_append, List.mem_singleton] at ht
    rcases ht with ht | rfl
    · exact .inl ⟨t, ht, hact⟩
    · simp only [List.mem_cons, List.not_mem_nil, or_false] at hact
      rcases hact with rfl | rfl | rfl | rfl | rfl | rfl
      all_goals first | exact .inr (.inr ⟨p, rfl, .inl rfl⟩) | exact .inr (.inr ⟨p, rfl, .inr rfl⟩) | cases hd
  | run hi h =>
    obtain ⟨acts, hs, hacts⟩ := h.drains
    exact .inl (old (List.mem_of_getElem? hi) hacts hs)

/-- A task stays with its actor. -/
theorem exec_actor (he : s.exec L op = some s') {t t' : Task} (ht : s.tasks[j]? = some t)
    (ht' : s'.tasks[j]? = some t') : t'.actor = t.actor := by
  have hlt := (List.getElem?_eq_some_iff.mp ht).1
  rcases exec_tasks he with ⟨ts, hs⟩ | ⟨i, a, act, rest, acts, hi, hs, -⟩
  · rw [hs, List.getElem?_append_left hlt, ht] at ht'
    cases ht'
    rfl
  · by_cases hij : i = j
    · subst hij
      rw [hs, List.getElem?_set_self hlt] at ht'
      rw [hi] at ht
      cases ht
      cases ht'
      rfl
    · rw [hs, List.getElem?_set_ne hij, ht] at ht'
      cases ht'
      rfl

/-- A thread that starts an operation is not dead, and it has nothing else to do. -/
theorem idle_iff : s.idle L x = true ↔ (s.closed (L.procOf x) = false ∧ s.threadDead x = false) ∧
    ∀ t ∈ s.tasks, t.actor = .thread x → t.acts = [] := by
  simp [RefState.idle, imp_iff_not_or]

namespace Callers

theorem start : Callers L start := by
  constructor <;> simp [Refs.start]

theorem exec_senders (h : Callers L s) (hg : Good L s) (he : s.exec L op = some s') {t : Task}
    (hj : s'.tasks[j]? = some t) (hact : act ∈ t.acts) (hx : act.sender = some x) :
    t.actor = .thread x := by
  have hgrants : act.grants = true := by cases act <;> first | rfl | cases hx
  rcases exec_grants he hj hact hgrants with ⟨t', hj', hact'⟩ | hnew
  · rw [exec_actor he hj' hj]
    exact h.senders j t' hj' act hact' x hx
  · have head {a : Actor} {act : Act} {rest : List Act} (hi : s.tasks[j]? = some ⟨a, act :: rest⟩)
        (hx : act.sender = some x) : t.actor = .thread x :=
      (exec_actor he hi hj).trans (h.senders _ _ hi _ List.mem_cons_self _ hx)
    have build {a : Actor} {b : BufId} {target : Option NodeId} {rest : List Act}
        (hi : s.tasks[j]? = some ⟨a, .build x b target :: rest⟩) : t.actor = .thread x :=
      (exec_actor he hi hj).trans (hg.shape.task _ (List.mem_of_getElem? hi)).build.1
    cases hnew with
    | found hi | missing hi =>
      cases hx
      exact build hi
    | handle | translateHandle | command | setCtxMgr => cases hx
    | newNode hi | translateBinder hi =>
      cases hx
      exact head hi rfl
    | alloc hi | add hi => exact head hi hx

theorem exec_draining (h : Callers L s) (he : s.exec L op = some s') {t : Task} (ht : t ∈ s'.tasks)
    (hact : act ∈ t.acts) (hl : act.drops L l = true) : Gone L s' l := by
  have hd : act.drains = true := by cases act <;> first | rfl | cases hl
  rcases exec_drains he ht hact hd with ⟨t', ht', hact'⟩ | ⟨x, rfl, rfl⟩ | ⟨p, rfl, hp⟩
  · exact (h.drains t' ht' act hact' l hl).exec he
  · obtain ⟨-, he⟩ := guard_bind he
    cases he
    obtain rfl : l = .thread x := by simpa [Act.drops] using hl
    exact .inl (Function.update_self ..)
  · obtain ⟨-, he⟩ := guard_bind he
    obtain ⟨-, he⟩ := guard_bind he
    cases he
    rcases hp with rfl | rfl
    · cases l with
      | proc q => cases hl
      | thread x =>
        obtain rfl : L.procOf x = p := by simpa [Act.drops, threadOf] using hl
        exact .inr (Function.update_self ..)
    · obtain rfl : l = .proc p := by simpa [Act.drops] using hl
      exact Function.update_self ..

theorem exec_alive (h : Callers L s) (he : s.exec L op = some s') {t : Task} (ht : t ∈ s'.tasks)
    (hx : t.actor = .thread x) (hne : t.acts ≠ []) :
    s'.threadDead x = false ∨ t.acts = [.releaseWork (.thread x)] := by
  have old {t : Task} (hd : s'.threadDead = s.threadDead) (ht : t ∈ s.tasks) (hx : t.actor = .thread x)
      (hne : t.acts ≠ []) : s'.threadDead x = false ∨ t.acts = [.releaseWork (.thread x)] := by
    rw [hd]
    exact h.alive t ht x hx hne
  have add {y : ThreadId} {acts : List Act} (hs : s'.tasks = s.tasks ++ [⟨.thread y, acts⟩])
      (hd : s'.threadDead = s.threadDead) (hidle : s.idle L y = true) :
      s'.threadDead x = false ∨ t.acts = [.releaseWork (.thread x)] := by
    rw [hs, List.mem_append, List.mem_singleton] at ht
    rcases ht with ht | rfl
    · exact old hd ht hx hne
    · cases hx
      rw [hd]
      exact .inl (idle_iff.mp hidle).1.2
  have set {i : Nat} {a : Actor} {act : Act} {rest acts : List Act} (hi : s.tasks[i]? = some ⟨a, act :: rest⟩)
      (hs : s'.tasks = s.tasks.set i ⟨a, acts⟩) (hd : s'.threadDead = s.threadDead)
      (hacts : act :: rest = [.releaseWork (.thread x)] → acts ≠ [] →
        acts = [.releaseWork (.thread x)]) :
      s'.threadDead x = false ∨ t.acts = [.releaseWork (.thread x)] := by
    rw [hs] at ht
    rcases List.mem_or_eq_of_mem_set ht with ht | rfl
    · exact old hd ht hx hne
    · rcases h.alive _ (List.mem_of_getElem? hi) x hx (List.cons_ne_nil _ _) with h | h
      · exact .inl (by rwa [hd])
      · exact .inr (hacts h hne)
  cases exec_cases he with
  | transaction hidle | reply hidle | update hidle | updateMgr hidle | doneCommand hidle
  | nodeInfo hidle | showNode hidle | freeBuffer hidle => exact add rfl rfl hidle
  | setCtxMgr hidle _ _ hn =>
    have henv := initNode_env hn
    simp only [RefState.env, Prod.mk.injEq] at henv
    exact add (by rw [← henv.2.2.2.2.2.1]; rfl) henv.2.2.2.1 hidle
  | tell | tellFree => exact old rfl ht hx hne
  | binderFound hi | binderNew hi | handle hi | fails _ hi | send hi =>
    exact set hi rfl rfl fun h => by cases h
  | @threadExit y hidle =>
    simp only [RefState.addTask, RefState.exitThread, List.mem_append, List.mem_singleton] at ht
    rcases ht with ht | rfl
    · have hy : x ≠ y := by
        rintro rfl
        exact hne ((idle_iff.mp hidle).2 t ht hx)
      rcases h.alive t ht x hx hne with h | h
      · exact .inl ((Function.update_of_ne hy ..).trans h)
      · exact .inr h
    · cases hx
      exact .inr rfl
  | close =>
    simp only [RefState.addTask, RefState.setClosed, List.mem_append, List.mem_singleton] at ht
    rcases ht with ht | rfl
    · exact old rfl ht hx hne
    · cases hx
  | @run i _ a act rest _ hi hact =>
    obtain ⟨acts, hs⟩ := hact.tasks
    refine set hi hs hact.threadDead fun hacts hne => ?_
    cases hacts
    have hlt := (List.getElem?_eq_some_iff.mp hi).1
    have htask : s'.tasks[i]? = some ⟨a, acts⟩ := by rw [hs, List.getElem?_set_self hlt]
    cases hact with
    | dropWork | dropEnd =>
      simp only [RefState.setTask, RefState.setNode, List.getElem?_set_self hlt, Option.some.injEq,
        Task.mk.injEq, true_and] at htask
      first | exact htask.symm | exact absurd htask.symm hne
    | incFound hacts => rcases hacts with hacts | hacts <;> cases hacts

theorem exec (h : Callers L s) (hg : Good L s) (he : s.exec L op = some s') : Callers L s' where
  senders _ _ hj _ hact _ hx := h.exec_senders hg he hj hact hx
  drains _ ht _ hact _ hl := h.exec_draining he ht hact hl
  alive _ ht _ hx hne := h.exec_alive he ht hx hne

end Callers

/-! ## The flags of one node -/

/-- The flags of the node say what its counters say. -/
structure Node.Settled (N : Node) : Prop where
  strong : N.hasStrongRef = N.strong
  idle : N.hasWeakRef = false → N.localWeakRefs = 0
  weak : N.hasWeakRef = true → N.weak = true

/-- A node that `binder_dec_node_nilocked` leaves on no list has references of that kind left, or its
owner knows of none. -/
theorem Node.dec_list (hp : N.proc = some p) (hf : (N.dec strong internal).1 = false)
    (hw : (N.dec strong internal).2.work = none) :
    N.work = none ∧ (N.dec strong internal).2 = N.drop strong internal ∧
      ((N.drop strong internal).held strong = true ∨ N.hasStrongRef = false ∧ N.hasWeakRef = false) := by
  obtain ⟨M, hM⟩ : ∃ M, M = N.drop strong internal := ⟨_, rfl⟩
  obtain ⟨hwork, hproc, hs, hk⟩ : M.work = N.work ∧ M.proc = some p ∧
      M.hasStrongRef = N.hasStrongRef ∧ M.hasWeakRef = N.hasWeakRef := by
    subst hM
    cases strong <;> cases internal <;> exact ⟨rfl, hp, rfl, rfl⟩
  simp only [Node.dec, ← hM, hproc] at hf hw ⊢
  by_cases hheld : M.held strong = true
  · rw [if_pos hheld] at hw ⊢
    exact ⟨hwork ▸ hw, rfl, .inl hheld⟩
  rw [if_neg hheld] at hf hw ⊢
  by_cases hflags : (M.hasStrongRef || M.hasWeakRef) = true
  · rw [if_pos hflags] at hw
    by_cases hn : M.work.isNone = true
    · simp [hn] at hw
    · simp [hn] at hw
      simp [hw] at hn
  rw [if_neg hflags] at hf hw ⊢
  by_cases hu : M.unused = true
  · rw [if_pos hu] at hf
    cases hf
  · rw [if_neg hu] at hw ⊢
    refine ⟨hwork ▸ hw, rfl, .inr ?_⟩
    rwa [Bool.or_eq_true, not_or, Bool.not_eq_true, Bool.not_eq_true, hs, hk] at hflags

/-- A node with references is not freed. -/
theorem Node.dec_kept (hr : r ∈ N.refs) : (N.dec strong internal).1 = false := by
  by_contra hfree
  have hu := (dec_free (by simpa using hfree)).1
  rw [drop_refs.symm.trans (unused_iff.mp hu).1] at hr
  cases hr

/-- What there is to tell of a node is the same after it has been told. -/
theorem Node.tell_strong (hs : 0 ≤ N.localStrongRefs) : N.tell.strong = N.strong := by
  by_cases h : (N.strong && !N.hasStrongRef) = true
  · have hnew : N.tell.strong = true := by
      simp only [Node.tell, Node.strong] at h ⊢
      simp only [Bool.or_eq_true, bne_iff_ne, h, if_true]
      omega
    rw [hnew]
    rw [Bool.and_eq_true] at h
    exact h.1.symm
  · have hs' : N.tell.localStrongRefs = N.localStrongRefs := by
      simp only [Node.tell, if_neg h, add_zero]
    rw [Node.strong, Node.strong, hs']
    rfl

theorem Node.tell_weak (hs : 0 ≤ N.localStrongRefs) (hk : 0 ≤ N.localWeakRefs) : N.tell.weak = N.weak := by
  by_cases h : (N.weak && !N.hasWeakRef) = true
  · have hnew : N.tell.weak = true := by
      rw [Node.weak]
      simp only [Bool.or_eq_true, bne_iff_ne, Node.tell, h, if_true]
      omega
    rw [hnew]
    rw [Bool.and_eq_true] at h
    exact h.1.symm
  · have hk' : N.tell.localWeakRefs = N.localWeakRefs := by
      simp only [Node.tell, if_neg h, add_zero]
    rw [Node.weak, Node.weak, Node.tell_strong hs, hk']
    rfl

namespace Node.Settled

theorem dec (hp : N.proc = some p)
    (h : N.work = none → N.hasStrongRef = N.strong ∧ (N.hasWeakRef = false → N.localWeakRefs = 0))
    (hs : strong = true → 1 ≤ N.internalStrongRefs ∨ 1 ≤ N.localStrongRefs)
    (hk : strong = false → internal = false → 1 ≤ N.localWeakRefs)
    (hf : (N.dec strong internal).1 = false) (hw : (N.dec strong internal).2.work = none) :
    (N.dec strong internal).2.Settled := by
  obtain ⟨hnone, heq, hcase⟩ := dec_list hp hf hw
  obtain ⟨hstrong, hidle⟩ := h hnone
  rw [heq]
  cases strong with
  | true =>
    have hhas : N.hasStrongRef = true := by
      have := hs rfl
      rw [hstrong]
      simp only [Node.strong, Bool.or_eq_true, bne_iff_ne]
      omega
    have hheld : (N.drop true internal).strong = true := by
      rcases hcase with hheld | ⟨h0, -⟩
      · rw [Node.strong, Bool.or_comm]
        exact hheld
      · rw [hhas] at h0
        cases h0
    refine ⟨?_, ?_, fun _ => weak_of_strong hheld⟩
    · rw [hheld]
      cases internal <;> exact hhas
    · cases internal <;> exact hidle
  | false =>
    refine ⟨?_, ?_, ?_⟩
    · cases internal <;> exact hstrong
    · cases internal with
      | true => exact hidle
      | false =>
        intro hoff
        have h0 := hidle hoff
        have := hk rfl rfl
        omega
    · intro hon
      rcases hcase with hheld | ⟨-, hoff⟩
      · unfold Node.weak
        rw [Node.held, if_neg Bool.false_ne_true] at hheld
        simp only [Bool.or_eq_true] at hheld ⊢
        tauto
      · have : N.hasWeakRef = true := by cases internal <;> exact hon
        rw [this] at hoff
        cases hoff

/-- The node without one of its references. -/
theorem unref {k : Int32} {w : Option WorkList} (h : N.work = none → N.Settled) (hp : N.proc = some p)
    (hr : r ∈ N.refs) (hs : k ≠ 0 → 1 ≤ N.internalStrongRefs)
    (hw : w = (if k = 0 then N else (N.dec true true).2).work)
    (hf : ((N.unref r (k != 0) w).dec false true).1 = false)
    (hnone : ((N.unref r (k != 0) w).dec false true).2.work = none) :
    ((N.unref r (k != 0) w).dec false true).2.Settled := by
  have hpK : (N.unref r (k != 0) w).proc = some p := (drop_proc ..).trans hp
  obtain ⟨hwnone, heq, hcase⟩ := dec_list hpK hf hnone
  have hwnone : w = none := hwnone
  obtain ⟨M, hM, hM'⟩ : ∃ M : Node, M.Settled ∧
      N.unref r (k != 0) w = { M with refs := M.refs.erase r, work := w } := by
    by_cases hk : k = 0
    · subst hk
      rw [if_pos rfl] at hw
      exact ⟨N, h (hw.symm.trans hwnone), rfl⟩
    · rw [if_neg hk] at hw
      have hfree : (N.dec true true).1 = false := dec_kept hr
      have hlist : (N.dec true true).2.work = none := hw.symm.trans hwnone
      refine ⟨(N.dec true true).2, dec hp (fun h' => ⟨(h h').strong, (h h').idle⟩) (fun _ => .inl (hs hk))
        (fun h => by cases h) hfree hlist, ?_⟩
      rw [(dec_list hp hfree hlist).2.1]
      have hb : (k != 0) = true := by simpa using hk
      rw [hb]
      rfl
  rw [heq]
  rw [hM'] at hcase ⊢
  refine ⟨hM.strong, hM.idle, fun hon => ?_⟩
  rcases hcase with hheld | ⟨-, hoff⟩
  · unfold Node.weak
    rw [Node.held, if_neg Bool.false_ne_true] at hheld
    simp only [Bool.or_eq_true] at hheld ⊢
    tauto
  · have : M.hasWeakRef = true := hon
    rw [this] at hoff
    cases hoff

end Node.Settled

/-! ## The references that are being created -/

/-- A new reference has no count until the task that creates it increments it. -/
def Untouched (s : RefState) : Prop :=
  ∀ (i : Nat) a why p n r strong list rest R,
    s.tasks[i]? = some ⟨a, .incNewRef why p n r strong list :: rest⟩ → s.ref r = some R →
      R.unused = true

theorem takeNode_ref (h : s.takeNode n = some s') : s'.ref = s.ref := by
  obtain ⟨N, -, h⟩ := Option.bind_eq_some_iff.mp h
  cases h
  rfl

/-- A reference is as it was; or its process was not locked, or it is new. -/
theorem exec_ref (ht : Tables s) (he : s.exec L op = some s') (r : RefId) : s'.ref r = s.ref r ∨
    (∃ R, s.ref r = some R ∧ s.outerFree R.proc = true) ∨
    (∃ i ok a why p n strong list rest, op = .run i ok ∧
      s.tasks[i]? = some ⟨a, .incNewRef why p n r strong list :: rest⟩) ∨
    s'.ref r = none ∨ (s.ref r = none ∧ ∃ R, s'.ref r = some R ∧ Working s' R.proc r) := by
  have set {k : RefId} {f : RefId → Option Ref} {o : Option Ref} (hf : s'.ref = f)
      (hu : f = Function.update s.ref k o) (hne : r ≠ k) : s'.ref r = s.ref r := by
    rw [hf, hu, Function.update_of_ne hne]
  have ofDesc {p : ProcId} (hr : r ∈ s.refsByDesc p) (hfree : s.outerFree p = true) :
      ∃ R, s.ref r = some R ∧ s.outerFree R.proc = true := by
    obtain ⟨R, hR, rfl⟩ := (ht.byDesc p r).mp hr
    exact ⟨R, hR, hfree⟩
  cases exec_refStep he ht.fresh with
  | same hs => exact .inl (congrFun hs.ref r)
  | @inc i a act rest k strong list ok done s₁ _ hi hrais hinc hs =>
    by_cases hk : r = k
    · subst hk
      obtain ⟨t, ht', he⟩ := Option.bind_eq_some_iff.mp he
      rw [hi] at ht'
      cases ht'
      cases hrais with
      | found hact hget =>
        obtain ⟨R, hR, rfl, -⟩ := getRefForNode_some ht hget
        rcases hact with rfl | rfl
        · exact .inr (.inl ⟨R, hR, (guard_bind he).1⟩)
        · exact .inr (.inl ⟨R, hR, (guard_bind he).1⟩)
      | new => exact .inr (.inr (.inl ⟨i, ok, a, _, _, _, _, _, rest, rfl, hi⟩))
      | update hget => exact .inr (.inl (ofDesc (getRef_mem hget) (guard_bind he).1))
    · obtain ⟨K, hK, ⟨-, -, rfl⟩ | ⟨-, -, rfl⟩ | ⟨-, -, N, -, -, rfl⟩⟩ := incRef_cases hinc
      · exact .inl (congrFun hs.ref r)
      · exact .inl (set hs.ref rfl hk)
      · exact .inl (set hs.ref rfl hk)
  | @dec i a act rest p k strong ok last s₁ _ hi hlow hd hs =>
    by_cases hk : r = k
    · subst hk
      obtain ⟨t, ht', he⟩ := Option.bind_eq_some_iff.mp he
      rw [hi] at ht'
      cases ht'
      have hmem := hlow.mem
      cases hlow with
      | @object o os hget =>
        by_cases hb : o.isBinder = true
        · simp only [RefState.execAct, hb, if_true] at he
          split at he
          · cases he
            exact .inl rfl
          · obtain ⟨s₂, hs₂, he⟩ := Option.bind_eq_some_iff.mp he
            cases he
            exact .inl (congrFun (takeNode_ref hs₂) r :)
        · simp only [RefState.execAct, if_neg hb] at he
          exact .inr (.inl (ofDesc hmem (guard_bind he).1))
      | update hget => exact .inr (.inl (ofDesc hmem (guard_bind he).1))
    · obtain ⟨K, hK, ⟨-, rfl, -⟩ | ⟨-, -, -, rfl⟩ | ⟨-, -, -, N, -, rfl⟩⟩ :=
        decRef_cases hd fun R hR => ht.onNode _ R hR
      · exact .inl (congrFun hs.ref r)
      · exact .inl (set hs.ref rfl hk)
      · exact .inl (set hs.ref rfl hk)
  | @add i a why p n strong list rest ok s₁ _ hi hnone ha hs htask =>
    obtain ⟨N, qs, -, -, rfl⟩ := addRef_eq ha
    by_cases hk : r = s.nextRef
    · subst hk
      refine .inr (.inr (.inr (.inr ⟨ht.freshRef, _, (congrFun hs.ref _).trans (Function.update_self ..), ?_⟩)))
      exact ⟨i, a, _, rest, htask, .inl ⟨_, _, _, _, rfl⟩⟩
    · exact .inl (set hs.ref rfl hk)
  | @remove i a act rest k ok s₁ _ hi hrem hc hs =>
    have hs' : s'.ref = Function.update s.ref k none := by
      obtain ⟨K, N, w, -, -, -, ⟨-, rfl⟩ | ⟨-, rfl⟩⟩ := cleanupRef_cases hc fun R hR => ht.onNode _ R hR
      all_goals exact hs.ref
    by_cases hk : r = k
    · subst hk
      exact .inr (.inr (.inr (.inl (by rw [hs', Function.update_self]))))
    · exact .inl (set hs' rfl hk)

theorem Untouched.exec (h : Untouched s) (ht : Tables s) (hlk : Locked L s)
    (he : s.exec L op = some s') : Untouched s' := by
  intro j a why p n r strong list rest R' hj hR'
  have hw : (Act.incNewRef why p n r strong list).worksOn p r := .inl ⟨_, _, _, _, rfl⟩
  rcases exec_continues he hj with ⟨hold, hop⟩ | ⟨-, act₀, rest₀, hi, hc⟩ | hnew
  · -- no other task can change its counts
    obtain ⟨R, hR, hp, -⟩ := hlk.held j a _ rest p r hold hw
    have hu := h j a why p n r strong list rest R hold hR
    have hholds : Holds s j p := ⟨a, _, rest, hold, rfl⟩
    rcases exec_ref ht he r with hsame | ⟨K, hK, hfree⟩ |
      ⟨i, ok, a', why', p', n', k, list', rest', rfl, hi⟩ | hgone | ⟨hnew, -⟩
    · rw [hsame, hR] at hR'
      cases hR'
      exact hu
    · rw [hR] at hK
      cases hK
      exact absurd (hp ▸ hfree) hholds.not_free
    · obtain ⟨K, hK, hKp, -⟩ := hlk.held i a' _ rest' p' r hi (.inl ⟨_, _, _, _, rfl⟩)
      rw [hR] at hK
      cases hK
      have hpp : p = p' := hp.symm.trans hKp
      subst hpp
      have hij := hlk.excl i j p ⟨a', _, rest', hi, rfl⟩ hholds
      exact absurd (congrArg some hij) hop
    · rw [hR'] at hgone
      cases hgone
    · rw [hR] at hnew
      cases hnew
  · have hplain := hlk.tailPlain hi
    have ho := hw.outer
    generalize hacts : Act.incNewRef why p n r strong list :: rest = acts at hc
    cases hc with
    | plain hc =>
      subst hacts
      rcases hc _ List.mem_cons_self with hact | hact
      · rw [(hplain _ hact).1] at ho
        cases ho
      · rw [hact.1] at ho
        cases ho
    | newNode | found | cleanup => cases hacts
    | offers _ _ hout =>
      cases hacts
      rw [hout] at ho
      cases ho
    | addRef _ _ hadd href =>
      cases hacts
      obtain ⟨N, qs, -, -, rfl⟩ := addRef_eq hadd
      rw [href] at hR'
      have hnew : Function.update s.ref s.nextRef _ s.nextRef = some R' := hR'
      rw [Function.update_self] at hnew
      cases hnew
      rfl
  · have ho := hw.outer
    rw [(hnew _ List.mem_cons_self).1] at ho
    cases ho

/-! ## All nodes -/

/-- The owner has been told of references of this kind. -/
def Node.knows (N : Node) (strong : Bool) : Bool := if strong then N.hasStrongRef else N.hasWeakRef

/-- The process that reads the list. -/
def WorkList.owner (L : Layout) : WorkList → ProcId
  | .proc p => p
  | .thread x => L.procOf x

/-- The step is none of the three that lose what there is to tell: a thread exits with the work of a
node on its list; an object goes back to the owner of its node, which does not know of the
references of this kind; or the increment of a new reference fails, and the reference stays. -/
def keepsNotice (L : Layout) (s : RefState) : RefOp → Bool
  | .threadExit x =>
    (List.range s.nextNode).all fun n => (s.node n).all fun N => N.work != some (.thread x)
  | .run i _ =>
    match s.tasks[i]? with
    | some ⟨_, .translateHandle _ b n strong :: _⟩ => (s.node n).all fun N => (s.bufs[b]?).all fun B =>
        N.proc != some B.proc || N.work.isSome || N.knows strong
    | some ⟨_, .incNewRef _ _ n _ strong list :: _⟩ => (s.node n).all fun N =>
        N.canInc strong list (s.isMgr L n N) || N.work.isSome || N.hasWeakRef
    | _ => true
  | _ => true

/-- What the owners know, or are still to be told. -/
structure Told (L : Layout) (s : RefState) : Prop where
  flags : ∀ n N, s.node n = some N → N.hasStrongRef = true → N.hasWeakRef = true
  settled : ∀ n N p, s.node n = some N → N.proc = some p → s.closed p = false → N.work = none → N.Settled
  creating : ∀ n N p r R, s.node n = some N → N.proc = some p → s.closed p = false → N.work = none →
    N.hasWeakRef = false → r ∈ N.refs → s.ref r = some R → Working s R.proc r
  listed : ∀ n N l, s.node n = some N → N.work = some l →
    N.proc = some (l.owner L) ∧ ∀ x, l = .thread x → s.threadDead x = false

theorem told_start : Told L start := by
  constructor <;> simp [start]

theorem Turns.flags (h : Turns L s n op N N') (hflags : N.hasStrongRef = true → N.hasWeakRef = true) :
    N'.hasStrongRef = true → N'.hasWeakRef = true := by
  have of {N N' : Node} (h : N'.flags = N.flags) (hflags : N.hasStrongRef = true → N.hasWeakRef = true) :
      N'.hasStrongRef = true → N'.hasWeakRef = true := by
    simp only [Node.flags, Prod.mk.injEq] at h
    rw [h.1.2, h.2.2]
    exact hflags
  cases h with
  | same | take | transaction | addRef | dropWork | nodeRelease => exact hflags
  | translateOwn => exact of Node.bump_flags hflags
  | inc => exact of Node.inc_flags hflags
  | decNode | decRef => exact of Node.dec_flags hflags
  | putNode => exact of (Node.dec_flags.trans (by rfl)) hflags
  | cleanupRef => exact of (Node.dec_flags.trans Node.unref_flags) hflags
  | @done _ _ _ kind =>
    refine of Node.dec_flags ?_
    cases kind <;> exact hflags
  | becomeMgr => exact fun _ => rfl
  | readNode => exact Node.weak_of_strong

/-- The counters of a node of a process are not negative. -/
theorem counts_nonneg (hg : Good L s) (hl : Local L s) (hN : s.node n = some N) (hp : N.proc = some p) :
    0 ≤ N.internalStrongRefs ∧ 0 ≤ N.localStrongRefs ∧ 0 ≤ N.localWeakRefs ∧ 0 ≤ N.tmpRefs := by
  have hs := hl.spare_nonneg hg.links hN hp true
  have hk := hl.spare_nonneg hg.links hN hp false
  have ht := hg.tmp n
  rw [tmpOf_some hN] at ht
  simp only [Node.spare, Node.localRefs, if_true, Bool.false_eq_true, if_false] at hs hk
  have hi := hg.covered.le_internal hN
  omega

/-- A reference with a strong count keeps an internal reference on its node. -/
theorem internal_pos (hg : Good L s) (hN : s.node n = some N) (hR : s.ref r = some R) (hn : R.node = n)
    (hs : R.strong ≠ 0) : 1 ≤ N.internalStrongRefs := by
  obtain ⟨K, hK, hr⟩ := hg.tables.onNode r R hR
  rw [hn, hN] at hK
  cases hK
  have hpos : 0 < N.refs.countP fun r => s.strongOf r != 0 :=
    List.countP_pos_iff.mpr ⟨r, hr, by simpa [RefState.strongOf, hR] using hs⟩
  have := hg.covered.le_internal hN
  omega

/-- The target of a transaction has strong references. -/
theorem strong_of_isTarget {handle : Nat} (h : IsTarget L s x handle n) (hg : Good L s) (hl : Local L s)
    (hN : s.node n = some N) : N.strong = true := by
  simp only [Node.strong, Bool.or_eq_true, bne_iff_ne]
  rcases h with ⟨-, -, r, R, hget, hR, hn⟩ | ⟨-, -, hm⟩
  · obtain ⟨K, hK, -, -, hs⟩ := getRef_some hg.tables hget
    rw [hR] at hK
    cases hK
    have := internal_pos hg hN hR hn (hs rfl)
    omega
  · obtain ⟨K, p, hK, hp, hc, -⟩ := hl.mgr _ n hm
    rw [hN] at hK
    cases hK
    have := hl.mgr_kept hg.links hN hp (hc ▸ hm) true
    simp only [Node.localRefs, if_true] at this
    omega

/-- The first internal increment of a node of which the owner does not know queues its work. -/
theorem Node.inc_tells {mgr : Bool} (hs : N.hasStrongRef = false) (hk : N.hasWeakRef = false)
    (hz : N.internalStrongRefs = 0) (hnone : N.work = none) (h : (N.inc strong true list mgr).1 = true) :
    (N.inc strong true list mgr).2.work ≠ none := by
  cases strong with
  | true =>
    cases list with
    | some x => simp [Node.inc_strong, hs, Node.bump]
    | none => simp [Node.inc_strong, hz, hs] at h
  | false =>
    cases list with
    | some x => simp [Node.inc_weak, hk, hnone]
    | none => simp [Node.inc_weak, hk, hnone] at h

/-- A step gives a node no other process. -/
theorem Turns.proc (h : Turns L s n op N N') (hp : N'.proc = some p) : N.proc = some p := by
  cases h with
  | same | take | transaction | addRef | readNode | becomeMgr | dropWork => exact hp
  | translateOwn => exact Node.bump_proc.symm.trans hp
  | inc => exact Node.inc_proc.symm.trans hp
  | decNode | decRef => exact Node.dec_proc.symm.trans hp
  | putNode => exact (Node.dec_proc (N := N.put)).symm.trans hp
  | cleanupRef =>
    rw [Node.dec_proc] at hp
    exact (Node.drop_proc ..).symm.trans hp
  | @done _ _ _ kind =>
    rw [Node.dec_proc] at hp
    cases kind <;> exact hp
  | nodeRelease => cases hp

theorem Node.dec_listed (h : (N.dec strong internal).2.work = some l) :
    N.work = some l ∨ ∃ q, N.proc = some q ∧ l = .proc q := by
  obtain ⟨w, heq, hw⟩ := N.dec_eq strong internal
  rw [heq] at h
  obtain rfl : w = some l := h
  rcases hw with hw | ⟨-, hw⟩ | ⟨q, hq, hw⟩
  · exact .inl hw.symm
  · cases hw
  · cases hw
    exact .inr ⟨q, hq, rfl⟩

/-- How the work of a node gets on a list. -/
theorem Turns.listed (h : Turns L s n op N N') (hl : N'.work = some l) :
    (N.work = some l ∧ N'.proc = N.proc) ∨ (∃ q, N.proc = some q ∧ N'.proc = N.proc ∧ l = .proc q) ∨
      ∃ i ok strong x a act rest r R, op = .run i ok ∧ s.tasks[i]? = some ⟨a, act :: rest⟩ ∧
        Raises s r strong (some x) act ∧ s.ref r = some R ∧ R.node = n ∧ l = .thread x ∧ N'.proc = N.proc := by
  have of {N N' : Node} {strong internal : Bool} (hN' : N' = (N.dec strong internal).2)
    (hl : N'.work = some l) :
      (N.work = some l ∧ N'.proc = N.proc) ∨ ∃ q, N.proc = some q ∧ N'.proc = N.proc ∧ l = .proc q := by
    subst hN'
    rcases Node.dec_listed hl with hw | ⟨q, hq, rfl⟩
    · exact .inl ⟨hw, Node.dec_proc⟩
    · exact .inr ⟨q, hq, Node.dec_proc, rfl⟩
  cases h with
  | same | take | transaction | addRef | becomeMgr => exact .inl ⟨hl, rfl⟩
  | @translateOwn _ _ _ _ _ kind =>
    have hw : N.work = some l := by cases kind <;> exact hl
    exact .inl ⟨hw, Node.bump_proc⟩
  | inc hok hi hrais hR hRn =>
    obtain ⟨w, heq, hw⟩ := Node.inc_succeeds hok
    rw [heq] at hl
    obtain rfl : w = some l := hl
    rcases hw with hw | ⟨x, rfl, hw⟩
    · exact .inl ⟨hw.symm, Node.inc_proc⟩
    · cases hw
      exact .inr (.inr ⟨_, _, _, x, _, _, _, _, _, rfl, hi, hrais, hR, hRn, rfl, Node.inc_proc⟩)
  | decNode | decRef => exact (of rfl hl).imp_right .inl
  | putNode => exact (of (N := N.put) rfl hl).imp_right .inl
  | @cleanupRef _ _ r R w _ hR hRn hwork =>
    have hproc : (N.unref r (R.strong != 0) w).proc = N.proc := Node.drop_proc ..
    rcases of rfl hl with ⟨hw, hp⟩ | ⟨q, hq, hp, rfl⟩
    · obtain rfl : w = some l := hw
      split at hwork
      · exact .inl ⟨hwork.symm, hp.trans hproc⟩
      · rcases of rfl hwork.symm with ⟨hw, -⟩ | ⟨q, hq, -, rfl⟩
        · exact .inl ⟨hw, hp.trans hproc⟩
        · exact .inr (.inl ⟨q, hq, hp.trans hproc, rfl⟩)
    · exact .inr (.inl ⟨q, hproc.symm.trans hq, hp.trans hproc, rfl⟩)
  | @done _ _ _ kind =>
    have hfields : (N.clearPending kind).work = N.work ∧ (N.clearPending kind).proc = N.proc := by
      cases kind <;> exact ⟨rfl, rfl⟩
    have := of rfl hl
    rw [hfields.1, hfields.2] at this
    exact this.imp_right .inl
  | readNode | dropWork | nodeRelease => cases hl

/-- The thread that sends the node of a reference is that of the act. -/
theorem sends (h : Raises s r strong (some x) act) (ht : Tables s) (hlk : Locked L s)
    (hi : s.tasks[i]? = some ⟨a, act :: rest⟩) (hR : s.ref r = some R) (hn : R.node = n) :
    act.sender = some x ∧ act.offers = some n := by
  cases h with
  | found hact hget =>
    obtain ⟨K, hK, -, hKn⟩ := getRefForNode_some ht hget
    rw [hR] at hK
    cases hK
    obtain rfl := hKn.symm.trans hn
    rcases hact with rfl | rfl
    · exact ⟨rfl, rfl⟩
    · exact ⟨rfl, rfl⟩
  | new =>
    obtain ⟨K, hK, -, hKn⟩ := hlk.held i a _ rest _ r hi (.inl ⟨_, _, _, _, rfl⟩)
    rw [hR] at hK
    cases hK
    obtain rfl := (hKn _ _ _ _ rfl).symm.trans hn
    exact ⟨rfl, rfl⟩
  | update _ hlist => cases hlist

/-- The node of an acknowledgement is not freed, as the task has a temporary reference on it. -/
theorem done_kept {cookie : Nat} (hg : Good L s) (hN : s.node n = some N)
    (hi : s.tasks[i]? = some ⟨a, .done n strong cookie :: rest⟩) :
    ((N.clearPending strong).dec strong false).1 = false := by
  by_contra hfree
  have hu := (Node.dec_free (by simpa using hfree)).1
  have hzero : N.tmpRefs = 0 := by
    have := (Node.unused_iff.mp hu).2.2.2
    rw [Node.drop_tmpRefs] at this
    cases strong <;> exact this
  obtain ⟨-, -, rfl⟩ := (hg.shape.task _ (List.mem_of_getElem? hi)).ofDone
  have hle := le_acting (f := Act.tmp n) hi (List.mem_cons_of_mem _ List.mem_cons_self)
  have htmp := hg.tmp n
  rw [tmpOf_some hN] at htmp
  simp only [Act.tmp, if_true] at hle
  omega

/-- A node that is on no list after a step, of whose references the owner does not know, was so
before. -/
theorem Turns.quiet (hg : Good L s) (hN : s.node n = some N) (hp : N.proc = some p)
    (h : Turns L s n op N N') (hp' : N'.proc = some p) (hw : N'.work = none) (hoff : N'.hasWeakRef = false)
    (hdrop : ∀ i ok a act rest l, op = .run i ok → s.tasks[i]? = some ⟨a, act :: rest⟩ →
      act.drains = true → N.work ≠ some l) : N.work = none ∧ N.hasWeakRef = false := by
  have flags {M M' : Node} (h : M'.flags = M.flags) (hoff : M'.hasWeakRef = false) : M.hasWeakRef = false := by
    simp only [Node.flags, Prod.mk.injEq] at h
    exact h.2.2.symm.trans hoff
  have kept {r : RefId} {R : Ref} (hR : s.ref r = some R) (hRn : R.node = n) : r ∈ N.refs := by
    obtain ⟨K, hK, hr⟩ := hg.tables.onNode r R hR
    rw [hRn, hN] at hK
    cases hK
    exact hr
  cases h with
  | same | take | transaction | addRef => exact ⟨hw, hoff⟩
  | @translateOwn _ _ _ _ _ kind => cases kind <;> exact ⟨hw, hoff⟩
  | inc hok =>
    obtain ⟨w, heq, hcase⟩ := Node.inc_succeeds hok
    refine ⟨?_, flags Node.inc_flags hoff⟩
    rw [heq] at hw
    obtain rfl : w = none := hw
    rcases hcase with hcase | ⟨x, -, hcase⟩
    · exact hcase.symm
    · cases hcase
  | decNode _ hf => exact ⟨(Node.dec_list hp hf hw).1, flags Node.dec_flags hoff⟩
  | decRef hR hRn =>
    exact ⟨(Node.dec_list hp (Node.dec_kept (kept hR hRn)) hw).1, flags Node.dec_flags hoff⟩
  | putNode hf => exact ⟨(Node.dec_list (N := N.put) hp hf hw).1, flags (M := N.put) Node.dec_flags hoff⟩
  | @cleanupRef _ _ r R w _ hR hRn hwork hf =>
    refine ⟨?_, flags (Node.dec_flags.trans Node.unref_flags) hoff⟩
    have hpK : (N.unref r (R.strong != 0) w).proc = some p := (Node.drop_proc ..).trans hp
    obtain rfl : w = none := (Node.dec_list hpK hf hw).1
    split at hwork
    · exact hwork.symm
    · exact (Node.dec_list hp (Node.dec_kept (kept hR hRn)) hwork.symm).1
  | @done _ _ _ kind _ _ _ hi =>
    have hpK : (N.clearPending kind).proc = some p := by cases kind <;> exact hp
    have hnone := (Node.dec_list hpK (done_kept hg hN hi) hw).1
    have hweak := flags (M := N.clearPending kind) Node.dec_flags hoff
    cases kind <;> exact ⟨hnone, hweak⟩
  | readNode _ hweak =>
    rw [show N.tell.hasWeakRef = N.weak from rfl, hweak] at hoff
    cases hoff
  | becomeMgr => cases hoff
  | dropWork hi hact hl =>
    refine absurd hl (hdrop _ _ _ _ _ _ rfl hi ?_)
    rcases hact with ⟨l, rfl⟩ | ⟨q, rfl⟩ <;> rfl
  | nodeRelease => cases hp'

/-- A node of a process that a step leaves on no list is settled, if it was before. -/
theorem Turns.settled (hg : Good L s) (hl : Local L s) (hN : s.node n = some N) (hp : N.proc = some p)
    (hset : N.work = none → N.Settled) (hflags : N.hasStrongRef = true → N.hasWeakRef = true)
    (hkeep : keepsNotice L s op = true) (h : Turns L s n op N N') (hp' : N'.proc = some p)
    (hw : N'.work = none) (hdrop : ∀ i ok a act rest l, op = .run i ok →
      s.tasks[i]? = some ⟨a, act :: rest⟩ → act.drains = true → N.work ≠ some l) : N'.Settled := by
  obtain ⟨hi0, hs0, hk0, ht0⟩ := counts_nonneg hg hl hN hp
  have hset' (h : N.work = none) : N.hasStrongRef = N.strong ∧ (N.hasWeakRef = false → N.localWeakRefs = 0) :=
    ⟨(hset h).strong, (hset h).idle⟩
  have hspare (k : Bool) := hl.spare_nonneg hg.links hN hp k
  -- a node with strong references, of which the owner knows
  have on {M : Node} (hhas : M.hasStrongRef = true) (hpos : 0 < M.internalStrongRefs ∨ 0 < M.localStrongRefs)
      (hM : M.hasWeakRef = true) : M.Settled := by
    have hstrong : M.strong = true := by
      simp only [Node.strong, Bool.or_eq_true, bne_iff_ne]
      omega
    refine ⟨hhas.trans hstrong.symm, fun hoff => ?_, fun _ => Node.weak_of_strong hstrong⟩
    rw [hM] at hoff
    cases hoff
  cases h with
  | same => exact hset hw
  | take =>
    have hold := hset hw
    refine ⟨hold.strong, hold.idle, fun _ => ?_⟩
    simp only [Node.weak, Bool.or_eq_true, bne_iff_ne]
    omega
  | transaction _ htarget =>
    have hhas := (hset hw).strong.trans (strong_of_isTarget htarget hg hl hN)
    exact on hhas (.inr (by simp only; omega)) (hflags hhas)
  | @translateOwn i ok a x b strong rest B _ hBp hi hB =>
    have hnone : N.work = none := by cases strong <;> exact hw
    have hold := hset hnone
    have hknows : N.knows strong = true := by
      simpa [keepsNotice, hi, hN, hB, hBp, hnone] using hkeep
    cases strong with
    | true => exact on hknows (.inr (Int.lt_add_one_of_le hs0)) (hflags hknows)
    | false =>
      have hhas : N.hasWeakRef = true := hknows
      refine ⟨hold.strong, fun hoff => ?_, fun _ => ?_⟩
      · rw [show (N.bump false false).hasWeakRef = N.hasWeakRef from rfl, hhas] at hoff
        cases hoff
      · simp only [Node.weak, Node.bump, Bool.false_eq_true, if_false, Bool.or_eq_true, bne_iff_ne]
        omega
  | @inc i ok strong list a act rest r R _ hok hi hrais hR hRn =>
    cases strong with
    | true =>
      rw [Node.inc_strong] at hok hw ⊢
      by_cases hc : (list.isNone && N.internalStrongRefs == 0 &&
          !(N.proc.isSome && s.isMgr L n N && N.hasStrongRef)) = true
      · rw [if_pos hc] at hok
        cases hok
      rw [if_neg hc] at hw ⊢
      have hpos : 0 < (N.bump true true).internalStrongRefs := Int.lt_add_one_of_le hi0
      cases list with
      | some x =>
        by_cases hhas : N.hasStrongRef = true
        · simp only [hhas, if_true] at hw ⊢
          exact on hhas (.inl hpos) (hflags hhas)
        · simp only [hhas] at hw
          cases hw
      | none =>
        have hhas : N.hasStrongRef = true := by
          by_cases hz : N.internalStrongRefs = 0
          · simp [hz] at hc
            exact hc.2
          · rw [(hset hw).strong]
            simp [Node.strong, hz]
        exact on hhas (.inl hpos) (hflags hhas)
    | false =>
      rw [Node.inc_weak] at hok hw ⊢
      by_cases hc : (!N.hasWeakRef && N.work.isNone) = true
      · rw [if_pos hc] at hok hw
        cases list with
        | some x => cases hw
        | none => cases hok
      · rw [if_neg hc] at hw ⊢
        exact hset hw
  | addRef =>
    have hold := hset hw
    exact ⟨hold.strong, hold.idle, fun _ => by simp [Node.weak]⟩
  | @decNode i ok a strong rest _ hi hf =>
    have howed : 1 ≤ N.localRefs strong := by
      obtain ⟨pl, hfits⟩ := Local.exists_fits hg.links hN hp
      have howed := hl.owed n pl strong hfits (.inr ⟨N, p, hN, hp⟩)
      have hle := le_acting (f := Act.owes n pl strong) hi List.mem_cons_self
      simp only [Act.owes, true_and, if_true] at hle
      rw [spareOf_some hN] at howed
      simp only [RefState.owed, Node.spare] at howed
      omega
    refine .dec hp hset' ?_ ?_ hf hw
    · rintro rfl
      exact .inr howed
    · rintro rfl -
      exact howed
  | decRef hR hRn hone =>
    have hpos := internal_pos hg hN hR hRn (by rw [hone]; decide)
    obtain ⟨K, hK, hr⟩ := hg.tables.onNode _ _ hR
    rw [hRn, hN] at hK
    cases hK
    exact .dec hp hset' (fun _ => .inl hpos) (fun h => by cases h) (Node.dec_kept hr) hw
  | putNode hf => exact .dec hp (fun h => hset' h) (fun h => by cases h) (fun _ h => by cases h) hf hw
  | cleanupRef hR hRn hwork hf =>
    obtain ⟨K, hK, hr⟩ := hg.tables.onNode _ _ hR
    rw [hRn, hN] at hK
    cases hK
    exact .unref hset hp hr (fun hs => internal_pos hg hN hR hRn hs) hwork hf hw
  | @done i ok a strong cookie rest _ hi hpend =>
    have hpos : 1 ≤ N.localRefs strong := by
      have := hspare strong
      simp only [Node.spare, hpend, Bool.toNat_true] at this
      omega
    have hfields : (N.clearPending strong).work = N.work ∧ (N.clearPending strong).proc = N.proc ∧
        (N.clearPending strong).hasStrongRef = N.hasStrongRef ∧
        (N.clearPending strong).hasWeakRef = N.hasWeakRef ∧
        (N.clearPending strong).strong = N.strong ∧
        (N.clearPending strong).localStrongRefs = N.localStrongRefs ∧
        (N.clearPending strong).localWeakRefs = N.localWeakRefs := by
      cases strong <;> exact ⟨rfl, rfl, rfl, rfl, rfl, rfl, rfl⟩
    obtain ⟨e₁, e₂, e₃, e₄, e₅, e₆, e₇⟩ := hfields
    refine .dec (e₂.trans hp) (by rw [e₁, e₃, e₄, e₅, e₇]; exact hset') ?_ ?_ ?_ hw
    · rintro rfl
      exact .inr (e₆ ▸ hpos)
    · rintro rfl -
      exact e₇ ▸ hpos
    · exact done_kept hg hN hi
  | readNode hq hweak =>
    have hstrong := Node.tell_strong hs0
    refine ⟨hstrong.symm, fun hoff => ?_, fun _ => ?_⟩
    · rw [show N.tell.hasWeakRef = N.weak from rfl, hweak] at hoff
      cases hoff
    · rw [Node.tell_weak hs0 hk0, hweak]
  | becomeMgr => exact on rfl (.inr (Int.lt_add_one_of_le hs0)) rfl
  | dropWork hi hact hl =>
    refine absurd hl (hdrop _ _ _ _ _ _ rfl hi ?_)
    rcases hact with ⟨l, rfl⟩ | ⟨q, rfl⟩ <;> rfl
  | nodeRelease => cases hp'

theorem exec_open (he : s.exec L op = some s') (h : s'.closed p = false) : s.closed p = false := by
  rcases exec_closes he with hc | ⟨q, -, hc⟩
  · rwa [← hc]
  · rw [hc, Function.update_apply] at h
    split at h
    · cases h
    · exact h

/-- What the drain of a list drops was on it. -/
theorem drain_list {ok : Bool} (hi : s.tasks[i]? = some ⟨a, act :: rest⟩) (hd : act.drains = true)
    (he : s.exec L (.run i ok) = some s') (hN : s.node n = some N) (hN' : s'.node n = some N')
    (hl : N.work = some l) (hw : N'.work = none) : act.drops L l = true := by
  obtain ⟨t, ht, he⟩ := Option.bind_eq_some_iff.mp he
  rw [hi] at ht
  cases ht
  have drops {f : WorkList → Bool} (he : s.releaseWork i a act rest f = some s') : f l = true := by
    rcases releaseWork_cases he with ⟨m, M, l', hM, hl', hf, rfl⟩ | ⟨-, rfl⟩
    · by_cases hm : n = m
      · subst hm
        rw [hN] at hM
        cases hM
        rw [hl] at hl'
        cases hl'
        exact hf
      · have hN'' : Function.update s.node m _ n = some N' := hN'
        rw [Function.update_of_ne hm, hN] at hN''
        cases hN''
        rw [hl] at hw
        cases hw
    · have hN'' : s.node n = some N' := hN'
      rw [hN] at hN''
      cases hN''
      rw [hl] at hw
      cases hw
  cases act with
  | releaseWork l' => exact drops he
  | releaseThreads p => exact drops he
  | _ => cases hd

namespace Told

/-- No drain takes the work of a node of an open process. -/
theorem not_dropped {ok : Bool} (h : Told L s) (hc : Callers L s) (he : s.exec L op = some s')
    (hN : s.node n = some N) (hp : N.proc = some p) (hopen : s.closed p = false)
    (hN' : s'.node n = some N') (hw : N'.work = none) (hop : op = .run i ok)
    (hi : s.tasks[i]? = some ⟨a, act :: rest⟩) (hd : act.drains = true) (hlist : N.work = some l) : False := by
  subst hop
  obtain ⟨howner, hlive⟩ := h.listed n N l hN hlist
  rw [hp] at howner
  cases howner
  have hgone := hc.drains _ (List.mem_of_getElem? hi) act List.mem_cons_self l
    (drain_list hi hd he hN hN' hlist hw)
  cases l with
  | proc q => exact Bool.false_ne_true (hopen.symm.trans hgone)
  | thread x =>
    rcases hgone with hdead | hclosed
    · exact Bool.false_ne_true ((hlive x rfl).symm.trans hdead)
    · exact Bool.false_ne_true (hopen.symm.trans hclosed)

theorem exec_settled (h : Told L s) (hc : Callers L s) (hg : Good L s) (hl : Local L s)
    (he : s.exec L op = some s') (hkeep : keepsNotice L s op = true) (hN' : s'.node n = some N')
    (hp' : N'.proc = some p) (hopen : s'.closed p = false) (hw : N'.work = none) : N'.Settled := by
  have hopen₀ := exec_open he hopen
  rcases exec_turns hg.tables he hN' with ⟨N, hN, hturn⟩ | ⟨-, q, ptr, cookie, rfl⟩
  · have hp := hturn.proc hp'
    refine hturn.settled hg hl hN hp (h.settled n N p hN hp hopen₀) (h.flags n N hN) hkeep hp' hw ?_
    intro i ok a act rest l hop hi hd hlist
    exact h.not_dropped hc he hN hp hopen₀ hN' hw hop hi hd hlist
  · exact ⟨rfl, fun _ => rfl, fun h => by cases h⟩

theorem exec_flags (h : Told L s) (hg : Good L s) (he : s.exec L op = some s') (hN' : s'.node n = some N') :
    N'.hasStrongRef = true → N'.hasWeakRef = true := by
  rcases exec_turns hg.tables he hN' with ⟨N, hN, hturn⟩ | ⟨-, q, ptr, cookie, rfl⟩
  · exact hturn.flags (h.flags n N hN)
  · exact fun h => by cases h

theorem exec_listed (h : Told L s) (hc : Callers L s) (hg : Good L s) (hlk : Locked L s)
    (he : s.exec L op = some s') (hkeep : keepsNotice L s op = true) (hN' : s'.node n = some N')
    (hlist : N'.work = some l) :
    N'.proc = some (l.owner L) ∧ ∀ x, l = .thread x → s'.threadDead x = false := by
  rcases exec_turns hg.tables he hN' with ⟨N, hN, hturn⟩ | ⟨-, q, ptr, cookie, rfl⟩
  · rcases hturn.listed hlist with ⟨hold, hp⟩ | ⟨q, hq, hp, rfl⟩ |
      ⟨i, ok, k, x, a, act, rest, r, R, rfl, hi, hrais, hR, hRn, rfl, hp⟩
    · obtain ⟨howner, hlive⟩ := h.listed n N l hN hold
      refine ⟨hp.trans howner, fun x hx => ?_⟩
      rcases exec_threadDead he with hd | ⟨y, rfl, -, hd⟩
      · rw [hd]
        exact hlive x hx
      · rw [hd, Function.update_apply]
        split
        · rename_i hy
          subst hy hx
          have hlt := hg.tables.nodeLt n N hN
          have := List.all_eq_true.mp hkeep n (List.mem_range.mpr hlt)
          simp [hN, hold] at this
        · exact hlive x hx
    · exact ⟨hp.trans hq, fun x hx => by cases hx⟩
    · obtain ⟨ha, hoff⟩ := sends hrais hg.tables hlk hi hR hRn
      have hactor : a = .thread x := hc.senders i _ hi act List.mem_cons_self x ha
      obtain ⟨-, y, M, hy, hM, hMp⟩ := hlk.offers _ (List.mem_of_getElem? hi) act List.mem_cons_self n hoff
      rw [show a = .thread y from hy] at hactor
      cases hactor
      rw [hN] at hM
      cases hM
      refine ⟨hp.trans hMp, fun z hz => ?_⟩
      cases hz
      rcases exec_threadDead he with hd | ⟨z, hz, -⟩
      · rw [hd]
        rcases hc.alive _ (List.mem_of_getElem? hi) x hy (List.cons_ne_nil _ _) with hlive | hrel
        · exact hlive
        · cases hrel
          cases ha
      · cases hz
  · cases hlist

/-- The increment of a new reference, which its node allows. -/
theorem incNewRef_node {ok : Bool} {why : Why}
    (hi : s.tasks[i]? = some ⟨a, .incNewRef why p n r strong list :: rest⟩)
    (he : s.exec L (.run i ok) = some s') (hR : s.ref r = some R) (hn : R.node = n) (hu : R.unused = true)
    (hN : s.node n = some N) (hcan : N.canInc strong list (s.isMgr L n N) = true) :
    s'.node n = some (N.inc strong true list (s.isMgr L n N)).2 := by
  subst hn
  have hzero : R.count strong = 0 := by
    simp only [Ref.unused, Bool.and_eq_true, beq_iff_eq] at hu
    cases strong
    · exact hu.2
    · exact hu.1
  obtain ⟨t, ht, he⟩ := Option.bind_eq_some_iff.mp he
  rw [hi] at ht
  cases ht
  obtain ⟨⟨done, s₁⟩, hinc, he⟩ := Option.bind_eq_some_iff.mp he
  have hnode : s'.node = s₁.node := (incRefDone_cases he).node
  obtain ⟨s₂, hs₂⟩ := incRef_zero L list hR hzero hN
  rw [hinc, hcan] at hs₂
  cases hs₂
  obtain ⟨K, hK, ⟨hf, -⟩ | ⟨-, hne, -⟩ | ⟨-, -, M, hM, -, rfl⟩⟩ := incRef_cases hinc
  · cases hf
  · rw [hR] at hK
    cases hK
    exact absurd hzero hne
  · rw [hR] at hK
    cases hK
    rw [hN] at hM
    cases hM
    rw [hnode]
    exact Function.update_self ..

theorem exec_creating (h : Told L s) (hc : Callers L s) (hu : Untouched s) (hg : Good L s) (hlk : Locked L s)
    (he : s.exec L op = some s') (hkeep : keepsNotice L s op = true) (hN' : s'.node n = some N')
    (hp' : N'.proc = some p) (hopen : s'.closed p = false) (hw : N'.work = none)
    (hoff : N'.hasWeakRef = false) (hr : r ∈ N'.refs) (hR' : s'.ref r = some R') :
    Working s' R'.proc r := by
  have hg' := hg.exec he
  have hRn : R'.node = n := by
    obtain ⟨K, hK, hKn⟩ := hg'.tables.ofNode n N' r hN' hr
    rw [hR'] at hK
    cases hK
    exact hKn
  have hopen₀ := exec_open he hopen
  -- a reference that was there before
  have old {R : Ref} (hR : s.ref r = some R) (hRp : R.proc = R'.proc) (hn : R.node = R'.node) :
      Working s' R'.proc r := by
    obtain ⟨N, hN, hrN⟩ := hg.tables.onNode r R hR
    rw [hn, hRn] at hN
    rcases exec_turns hg.tables he hN' with ⟨K, hK, hturn⟩ | ⟨hnew, -⟩
    · rw [hN] at hK
      cases hK
      have hp := hturn.proc hp'
      obtain ⟨hnone, hoff₀⟩ := hturn.quiet hg hN hp hp' hw hoff fun i ok a act rest l hop hi hd hlist =>
        h.not_dropped hc he hN hp hopen₀ hN' hw hop hi hd hlist
      have hwork := h.creating n N p r R hN hp hopen₀ hnone hoff₀ hrN hR
      rw [← hRp]
      rcases hwork.exec he with hwork | ⟨act, ⟨i, ok, a, rest, rfl, hi⟩, hact⟩
      · exact hwork
      rcases hact with ⟨why, m, k, list, rfl⟩ | rfl
      · -- the increment of the new reference queues the work
        obtain ⟨K, hK, -, hm⟩ := hlk.held i a _ rest _ r hi (.inl ⟨_, _, _, _, rfl⟩)
        rw [hR] at hK
        cases hK
        have hn' : R.node = n := hn.trans hRn
        have hnm : n = m := hn'.symm.trans (hm _ _ _ _ rfl)
        subst hnm
        have hcan : N.canInc k list (s.isMgr L n N) = true := by
          simpa [keepsNotice, hi, hN, hnone, hoff₀] using hkeep
        have hset := h.settled n N p hN hp hopen₀ hnone
        have hstrong : N.hasStrongRef = false := by
          by_contra hon
          rw [h.flags n N hN (by simpa using hon)] at hoff₀
          cases hoff₀
        have hzero : N.internalStrongRefs = 0 := by
          have := hset.strong.symm.trans hstrong
          simp only [Node.strong, Bool.or_eq_false_iff, bne_eq_false_iff_eq] at this
          exact this.1
        have hnode : s'.node n = some (N.inc k true list (s.isMgr L n N)).2 :=
          incNewRef_node hi he hR hn' (hu i a why _ n r k list rest R hi hR) hN hcan
        rw [hnode] at hN'
        cases hN'
        exact absurd hw (Node.inc_tells hstrong hoff₀ hzero hnone (Node.inc_canInc.trans hcan))
      · obtain ⟨t, ht, he⟩ := Option.bind_eq_some_iff.mp he
        rw [hi] at ht
        cases ht
        obtain ⟨s₁, hs₁, he⟩ := Option.bind_eq_some_iff.mp he
        cases he
        obtain ⟨K, M, w, -, -, -, ⟨-, rfl⟩ | ⟨-, rfl⟩⟩ :=
          cleanupRef_cases hs₁ fun R hR => hg.tables.onNode _ R hR
        all_goals simp [RefState.setTask, RefState.setNode, RefState.freeNode, RefState.dropRef] at hR'
    · exact absurd (hg.tables.nodeLt n N hN) (hnew ▸ lt_irrefl _)
  rcases (exec_refStep he hg.tables.fresh).refs hg.tables hR' with ⟨R, hR, hRp, -, hn⟩ | ⟨hnew, -⟩
  · exact old hR hRp.symm hn.symm
  · have hnone : s.ref r = none := hnew ▸ hg.tables.freshRef
    rcases exec_ref hg.tables he r with hsame | ⟨K, hK, -⟩ |
      ⟨i, ok, a', why, q, m, k, list, rest, rfl, hi⟩ | hgone | ⟨-, K, hK, hwork⟩
    · rw [hsame, hnone] at hR'
      cases hR'
    · rw [hnone] at hK
      cases hK
    · obtain ⟨K, hK, -⟩ := hlk.held i a' _ rest q r hi (.inl ⟨_, _, _, _, rfl⟩)
      rw [hnone] at hK
      cases hK
    · rw [hR'] at hgone
      cases hgone
    · rw [hR'] at hK
      cases hK
      exact hwork

theorem exec (h : Told L s) (hc : Callers L s) (hu : Untouched s) (hg : Good L s) (hl : Local L s)
    (hlk : Locked L s) (he : s.exec L op = some s') (hkeep : keepsNotice L s op = true) : Told L s' where
  flags _ _ hN := h.exec_flags hg he hN
  settled _ _ _ hN hp hopen hw := h.exec_settled hc hg hl he hkeep hN hp hopen hw
  creating _ _ _ _ _ hN hp hopen hw hoff hr hR :=
    h.exec_creating hc hu hg hlk he hkeep hN hp hopen hw hoff hr hR
  listed _ _ _ hN hl := h.exec_listed hc hg hlk he hkeep hN hl

end Told

theorem told_of_reachIf (h : (refSys L).ReachIf (fun s op => keepsNotice L s op = true) s) :
    (Good L s ∧ Local L s) ∧ Locked L s ∧ Callers L s ∧ Untouched s ∧ Told L s := by
  refine Sys.ReachIf.inv (I := fun s => (Good L s ∧ Local L s) ∧ Locked L s ∧ Callers L s ∧ Untouched s ∧
    Told L s) ?_ ?_ h
  · intro s h0
    cases h0
    exact ⟨⟨good_start, local_start⟩, Locked.start, Callers.start, by simp [Untouched, start], told_start⟩
  rintro s op s' ⟨⟨hg, hl⟩, hlk, hc, hu, ht⟩ hkeep he
  exact ⟨⟨hg.exec he, hl.exec hg he⟩, hlk.exec hg hl he, hc.exec hg he, hu.exec hg.tables hlk he,
    ht.exec hc hu hg hl hlk he hkeep⟩

/-- What the owner of the node knows is not what there is to know: of strong references, or of
references at all. A reference that is being created does not count. -/
def Untold (s : RefState) (N : Node) : Prop :=
  N.hasStrongRef ≠ N.strong ∨
    (N.hasWeakRef = false ∧ (N.localWeakRefs ≠ 0 ∨ N.strong = true ∨
      ∃ r ∈ N.refs, ∃ R, s.ref r = some R ∧ ¬ Working s R.proc r)) ∨
    (N.hasWeakRef = true ∧ N.weak = false)

/-- In a run that loses no notification, a node of an open process whose flags are not right is on a
list of its owner; and when a thread of the owner reads that list, they are right, or the node is
freed. -/
theorem owner_told (h : (refSys L).ReachIf (fun s op => keepsNotice L s op = true) s)
    (hN : s.node n = some N) (hp : N.proc = some p) (hopen : s.closed p = false) (hun : Untold s N) :
    ∃ l, N.work = some l ∧ l.owner L = p ∧ (∀ x, l = .thread x → s.threadDead x = false) ∧
      ∀ x, s.idle L x = true → (l = .thread x ∨ l = .proc (L.procOf x)) →
        ∃ s', s.exec L (.readNode x n) = some s' ∧
          ∀ N', s'.node n = some N' → N'.work = none ∧ N'.Settled := by
  obtain ⟨⟨hg, hl⟩, -, -, -, ht⟩ := told_of_reachIf h
  cases hw : N.work with
  | none =>
    exfalso
    have hset := ht.settled n N p hN hp hopen hw
    rcases hun with hs | ⟨hoff, hk | hs | ⟨r, hr, R, hR, hno⟩⟩ | ⟨hon, hweak⟩
    · exact hs hset.strong
    · exact hk (hset.idle hoff)
    · have hon := ht.flags n N hN (hset.strong.trans hs)
      exact Bool.false_ne_true (hoff.symm.trans hon)
    · exact hno (ht.creating n N p r R hN hp hopen hw hoff hr hR)
    · exact Bool.false_ne_true (hweak.symm.trans (hset.weak hon))
  | some l =>
    obtain ⟨howner, hlive⟩ := ht.listed n N l hN hw
    obtain rfl : p = l.owner L := Option.some.inj (hp.symm.trans howner)
    refine ⟨l, rfl, rfl, hlive, fun x hidle hlx => ?_⟩
    obtain ⟨-, hs0, hk0, -⟩ := counts_nonneg hg hl hN hp
    have hx : l.owner L = L.procOf x := by rcases hlx with rfl | rfl <;> rfl
    have hread : (N.work = some (.thread x) || N.work = some (.proc (L.procOf x))) = true := by
      rcases hlx with rfl | rfl <;> simp [hw]
    have hexec : s.exec L (.readNode x n) = s.tellNode (L.procOf x) n := by
      simp only [RefState.exec, hidle, hN]
      simp only [bind, Option.bind_some, guard, if_true, hread]
      rfl
    rw [hx] at hp
    rw [hexec]
    cases hweak : N.weak with
    | true =>
      refine ⟨(s.addMsgs n (tellMsgs N)).setNode n N.tell, ?_, fun N' hN' => ?_⟩
      · simp [RefState.tellNode, hN, hp, hweak, guard]
      · simp only [RefState.setNode, Function.update_self, Option.some.injEq] at hN'
        subst hN'
        refine ⟨rfl, (Node.tell_strong hs0).symm, fun hoff => ?_, fun _ => ?_⟩
        · exact absurd (hweak.symm.trans hoff) (by decide)
        · rw [Node.tell_weak hs0 hk0, hweak]
    | false =>
      refine ⟨(s.addMsgs n (tellMsgs N)).freeNode n (some (L.procOf x)), ?_, fun N' hN' => ?_⟩
      · simp [RefState.tellNode, hN, hp, hweak, guard]
      · simp [RefState.freeNode] at hN'

/-- The process 1 sends an object of its own to the context manager 0. -/
def sendOwn : List RefOp :=
  [.setCtxMgr 0 8 8, .run 0 true, .run 0 true, .transaction 1 0, .run 1 true,
    .object 1 ⟨.binder, 16, 16⟩] ++ List.replicate 5 (.run 1 true)

/-- The state after these. -/
def afterSendOwn : RefState :=
  (Sys.execIf (RefState.exec oneThread) (fun s op => keepsNotice oneThread s op = true) start sendOwn).get
    (by decide +kernel)

/-- The process 1 has its node in another process, and its thread still has to be told. -/
theorem owner_told_sendOwn : ∃ N, afterSendOwn.node 1 = some N ∧ N.hasStrongRef = false ∧ N.strong = true ∧
    ∃ l, N.work = some l ∧ l.owner oneThread = 1 := by
  obtain ⟨N, hN⟩ := Option.isSome_iff_exists.mp (show (afterSendOwn.node 1).isSome = true by decide +kernel)
  have hall : ∀ K, afterSendOwn.node 1 = some K → K.proc = some 1 ∧ K.hasStrongRef = false ∧
    K.strong = true := by
    decide +kernel
  obtain ⟨hp, hhas, hstrong⟩ := hall N hN
  have hne : N.hasStrongRef ≠ N.strong := by rw [hhas, hstrong]; decide
  obtain ⟨l, hl, howner, -⟩ := owner_told (L := oneThread) (p := 1)
    (Sys.ReachIf.execIf (.init rfl) (Option.some_get _).symm) hN hp (by decide +kernel) (.inl hne)
  exact ⟨N, hN, hhas, hstrong, l, hl, howner⟩

end Redroid.Binder.Refs
