import Redroid.Binder.RefLinks

/-!
# What a step does to a node

* `Act.first`: the acts with which only a new operation starts; `exec_first`: which step starts them.
* `FreesNode`: the five ways to free a node; `exec_freed`: a node is gone only in one of them.
* `Turns`: what a step does to a node that it leaves; `exec_turns`: every step does one of these.
-/

namespace Redroid.Binder.Refs

open RefState

/-- The acts that only a new operation has. -/
def Act.first : Act → Bool
  | .done .. | .becomeMgr .. | .clearMgr _ => true
  | _ => false

/-- The operation that starts with the act. -/
inductive Starts (L : Layout) (s : RefState) : RefOp → Actor → Act → RefState → Prop
  | done {x ptr cookie strong n s'} : s.getNode (L.procOf x) ptr = some n →
      Starts L s (.doneCommand x ptr cookie strong) (.thread x) (.done n strong cookie) s'
  | becomeMgr {x ptr cookie n s₁} : s.idle L x = true →
      s.initNode (L.procOf x) ptr cookie = some (n, s₁) →
      Starts L s (.setCtxMgr x ptr cookie) (.thread x) (.becomeMgr (L.ctxOf (L.procOf x)) n)
        (s₁.addTask (.thread x) [.becomeMgr (L.ctxOf (L.procOf x)) n, .putNode n])
  | clearMgr {p s'} : Starts L s (.close p) (.worker p) (.clearMgr p) s'

/-- A step calls `binder_free_node` for the node `n`, which is as the last argument then. -/
inductive FreesNode (L : Layout) (s : RefState) (n : NodeId) : RefOp → Node → Prop
  | decNode {i ok a strong rest N} : s.tasks[i]? = some ⟨a, .decNode n strong :: rest⟩ →
      s.node n = some N → (N.dec strong false).1 = true →
      FreesNode L s n (.run i ok) (N.dec strong false).2
  | putNode {i ok a rest N} : s.tasks[i]? = some ⟨a, .putNode n :: rest⟩ → s.node n = some N →
      (N.put.dec false true).1 = true → FreesNode L s n (.run i ok) (N.put.dec false true).2
  | cleanupRef {i ok a act rest r R N w} : s.tasks[i]? = some ⟨a, act :: rest⟩ →
      ((∃ p, act = .cleanupRef p r) ∨ ∃ p, act = .releaseRefs p) → s.ref r = some R → R.node = n →
      s.node n = some N → ((N.unref r (R.strong != 0) w).dec false true).1 = true →
      FreesNode L s n (.run i ok) ((N.unref r (R.strong != 0) w).dec false true).2
  | readNode {x N} : s.node n = some N → N.proc = some (L.procOf x) → N.weak = false →
      FreesNode L s n (.readNode x n) { N with work := none }
  | nodeRelease {i ok a p rest N} : s.tasks[i]? = some ⟨a, .nodeRelease p n :: rest⟩ →
      s.node n = some N → N.refs = [] → N.tmpRefs = 1 →
      FreesNode L s n (.run i ok) { N with work := none }

/-- What a step does to the node `n`. -/
inductive Turns (L : Layout) (s : RefState) (n : NodeId) : RefOp → Node → Node → Prop
  | same {op N} : Turns L s n op N N
  | take {op N} : Turns L s n op N { N with tmpRefs := N.tmpRefs + 1 }
  | transaction {x handle p N} : N.proc = some p → IsTarget L s x handle n →
      Turns L s n (.transaction x handle) N { N with
        localStrongRefs := N.localStrongRefs + 1, tmpRefs := N.tmpRefs + 1 }
  | translateOwn {i ok a x b strong rest B N} : N.proc = some (Buffer.proc B) →
      s.tasks[i]? = some ⟨a, .translateHandle x b n strong :: rest⟩ → s.bufs[b]? = some B →
      Turns L s n (.run i ok) N (N.bump strong false)
  | inc {i ok strong list a act rest r R N} : (N.inc strong true list (s.isMgr L n N)).1 = true →
      s.tasks[i]? = some ⟨a, act :: rest⟩ → Raises s r strong list act → s.ref r = some R →
      R.node = n → Turns L s n (.run i ok) N (N.inc strong true list (s.isMgr L n N)).2
  | addRef {i ok r N} : Turns L s n (.run i ok) N { N with refs := r :: N.refs }
  | decNode {i ok a strong rest N} : s.tasks[i]? = some ⟨a, .decNode n strong :: rest⟩ →
      (N.dec strong false).1 = false → Turns L s n (.run i ok) N (N.dec strong false).2
  | decRef {i ok r R N} : s.ref r = some R → R.node = n → R.strong = 1 →
      Turns L s n (.run i ok) N (N.dec true true).2
  | putNode {i ok N} : (N.put.dec false true).1 = false → Turns L s n (.run i ok) N (N.put.dec false true).2
  | cleanupRef {i ok r R w N} : s.ref r = some R → R.node = n →
      w = (if R.strong = 0 then N else (N.dec true true).2).work →
      ((N.unref r (R.strong != 0) w).dec false true).1 = false →
      Turns L s n (.run i ok) N ((N.unref r (R.strong != 0) w).dec false true).2
  | done {i ok a strong cookie rest N} : s.tasks[i]? = some ⟨a, .done n strong cookie :: rest⟩ →
      N.pending strong = true →
      Turns L s n (.run i ok) N ((N.clearPending strong).dec strong false).2
  | readNode {x N} : N.proc = some (L.procOf x) → N.weak = true → Turns L s n (.readNode x n) N N.tell
  | becomeMgr {i ok a c rest N} : s.tasks[i]? = some ⟨a, .becomeMgr c n :: rest⟩ →
      Turns L s n (.run i ok) N { N with
        localWeakRefs := N.localWeakRefs + 1, localStrongRefs := N.localStrongRefs + 1
        hasStrongRef := true, hasWeakRef := true }
  | dropWork {i ok a act rest l N} : s.tasks[i]? = some ⟨a, act :: rest⟩ →
      ((∃ l, act = .releaseWork l) ∨ ∃ p, act = .releaseThreads p) → N.work = some l →
      Turns L s n (.run i ok) N { N with work := none }
  | nodeRelease {i ok a p rest N} : s.tasks[i]? = some ⟨a, .nodeRelease p n :: rest⟩ →
      Turns L s n (.run i ok) N { N with
        work := none, proc := none, localStrongRefs := 0, localWeakRefs := 0 }

variable {L : Layout} {s s' s₁ : RefState} {m n : NodeId} {N N' : Node} {p q : ProcId} {b : BufId}
  {B B' : Buffer} {x : ThreadId} {r : RefId} {i : Nat} {a : Actor} {act : Act} {rest acts : List Act}
  {op : RefOp} {kind strong internal : Bool} {list : Option ThreadId} {pl : Option (ProcId × Nat)}

/-! ## The acts that start an operation -/

theorem releaseActs_first {failed : Bool} : ∀ act ∈ releaseActs b B failed, act.first = false := by
  intro act hact
  have := releaseActs_isOp act hact
  cases act <;> first | rfl | cases this

/-- A task goes on with none of them but those that it has. -/
theorem IncDone.first {why : Why} {res : Option RefId} (h : IncDone s i a rest p n strong why res s') :
    ∃ acts, s'.tasks = s.tasks.set i ⟨a, acts⟩ ∧ ∀ act ∈ acts, act.first = true → act ∈ rest := by
  cases h with
  | object | command => exact ⟨_, rfl, fun _ hact _ => hact⟩
  | again => exact ⟨_, rfl, by simp +contextual [Act.first]⟩
  | failed =>
    refine ⟨_, rfl, fun act hact hf => ?_⟩
    rcases List.mem_cons.mp hact with rfl | hact
    · cases hf
    · rw [releaseActs_first act hact] at hf
      cases hf

theorem ActStep.first (h : ActStep L s i a rest act s') :
    ∃ acts, s'.tasks = s.tasks.set i ⟨a, acts⟩ ∧ ∀ act' ∈ acts, act'.first = true → act' ∈ rest := by
  have env {s₁ : RefState} {acts : List Act} (h : s₁.env = s.env)
      (hacts : ∀ act' ∈ acts, act'.first = true → act' ∈ rest) :
      ∃ acts', (s₁.setTask i a acts).tasks = s.tasks.set i ⟨a, acts'⟩ ∧
        ∀ act' ∈ acts', act'.first = true → act' ∈ rest :=
    ⟨acts, by rw [← env_tasks h]; rfl, hacts⟩
  have fails {b : BufId} {B : Buffer} (pre : List Act) (hpre : ∀ act' ∈ pre, act'.first = false) :
      ∀ act' ∈ pre ++ releaseActs b B true, act'.first = true → act' ∈ rest := by
    intro act' hact' hf
    have : act'.first = false := by
      rcases List.mem_append.mp hact' with hact' | hact'
      · exact hpre act' hact'
      · exact releaseActs_first act' hact'
    rw [this] at hf
    cases hf
  cases h with
  | newNodeFail => exact ⟨_, rfl, fails [] (by simp)⟩
  | translateBinderFail | translateHandleFail => exact ⟨_, rfl, fails [_] (by simp [Act.first])⟩
  | checksFail | checks | translateBinder | translateOwn | translateHandle | incAlloc | releaseEnd
  | releaseSkip | releaseBinder | freeBuf | updateNone | doneBad | becomeMgr | clearMgr | clearNone
  | setDead | releaseNodesEnd | releaseNodes | nodeReleaseFree | nodeRelease | releaseRefsEnd =>
    exact ⟨_, rfl, by simp +contextual [Act.first]⟩
  | dropWork hact | dropEnd hact =>
    refine ⟨_, rfl, ?_⟩
    rcases hact with ⟨l, rfl⟩ | ⟨p, rfl⟩ <;> simp +contextual [Act.first]
  | newNode h => exact env (initNode_env h) (by simp +contextual [Act.first])
  | incFound _ _ _ hinc hdone | incNew hinc hdone =>
    rw [← env_tasks (incRef_env hinc)]
    exact hdone.first
  | incNoMem _ _ hdone => exact hdone.first
  | addRef _ _ h => exact env (addRef_env h) (by simp +contextual [Act.first])
  | decNode h => exact env (decNode_env h) fun _ h _ => h
  | putNode h => exact env (putNode_env h) fun _ h _ => h
  | @releaseHandle _ _ _ _ last _ _ _ _ h | @updateDec _ _ _ _ last _ _ _ h =>
    refine env (decRef_env h) ?_
    cases last <;> simp +contextual [Act.first]
  | cleanupRef h => exact env (cleanupRef_env h) fun _ h _ => h
  | releaseRefs _ _ h => exact env (cleanupRef_env h) (by simp +contextual [Act.first])
  | updateInc _ _ h => exact env (incRef_env h) fun _ h _ => h
  | @done _ _ _ _ s₁ _ _ h =>
    have htasks := env_tasks (decNilocked_env h)
    exact ⟨rest, congrArg (List.set · i _) htasks, fun _ h _ => h⟩

/-- Such an act is an old one, or its operation starts. -/
theorem exec_first (he : s.exec L op = some s') {t : Task} (ht : t ∈ s'.tasks) (hact : act ∈ t.acts)
    (hf : act.first = true) :
    (∃ t' ∈ s.tasks, t'.actor = t.actor ∧ act ∈ t'.acts) ∨ Starts L s op t.actor act s' := by
  have set {i : Nat} {a : Actor} {act₀ : Act} {rest acts : List Act}
      (hi : s.tasks[i]? = some ⟨a, act₀ :: rest⟩) (hs : s'.tasks = s.tasks.set i ⟨a, acts⟩)
      (hnew : ∀ act' ∈ acts, act'.first = true → act' ∈ rest) :
      (∃ t' ∈ s.tasks, t'.actor = t.actor ∧ act ∈ t'.acts) ∨ Starts L s op t.actor act s' := by
    rw [hs] at ht
    rcases List.mem_or_eq_of_mem_set ht with ht | rfl
    · exact .inl ⟨t, ht, rfl, hact⟩
    · exact .inl ⟨_, List.mem_of_getElem? hi, rfl, List.mem_cons_of_mem _ (hnew act hact hf)⟩
  have add {a : Actor} {acts : List Act} (hs : s'.tasks = s.tasks ++ [⟨a, acts⟩])
      (hnew : act ∈ acts → Starts L s op a act s') :
      (∃ t' ∈ s.tasks, t'.actor = t.actor ∧ act ∈ t'.acts) ∨ Starts L s op t.actor act s' := by
    rw [hs, List.mem_append, List.mem_singleton] at ht
    rcases ht with ht | rfl
    · exact .inl ⟨t, ht, rfl, hact⟩
    · exact .inr (hnew hact)
  cases exec_cases he with
  | transaction | reply | update | updateMgr | nodeInfo | showNode | threadExit =>
    refine add rfl fun hmem => ?_
    rw [List.mem_singleton] at hmem
    subst hmem
    cases hf
  | freeBuffer =>
    refine add rfl fun hmem => ?_
    rw [releaseActs_first act hmem] at hf
    cases hf
  | binderFound hi | binderNew hi | handle hi =>
    exact set hi rfl (by simp +contextual [Act.first])
  | fails _ hi =>
    refine set hi rfl fun act' hact' hf' => ?_
    rw [releaseActs_first act' hact'] at hf'
    cases hf'
  | @send _ _ _ _ target _ _ hi =>
    refine set hi rfl fun act' hact' hf' => ?_
    rcases List.mem_append.mp hact' with hact' | hact'
    · obtain ⟨k, -, rfl⟩ := List.mem_map.mp hact'
      cases hf'
    · exact hact'
  | doneCommand _ hget =>
    refine add rfl fun hmem => ?_
    rcases List.mem_cons.mp hmem with rfl | hmem
    · exact .done hget
    · rw [List.mem_singleton] at hmem
      subst hmem
      cases hf
  | tell | tellFree => exact .inl ⟨t, ht, rfl, hact⟩
  | @setCtxMgr x ptr cookie n s₁ hidle _ _ hn =>
    refine add (by rw [← env_tasks (initNode_env hn)]; rfl) fun hmem => ?_
    rcases List.mem_cons.mp hmem with rfl | hmem
    · exact .becomeMgr hidle hn
    · rw [List.mem_singleton] at hmem
      subst hmem
      cases hf
  | close =>
    refine add rfl fun hmem => ?_
    simp only [List.mem_cons, List.not_mem_nil, or_false] at hmem
    rcases hmem with rfl | rfl | rfl | rfl | rfl | rfl
    · exact .clearMgr
    all_goals cases hf
  | run hi h =>
    obtain ⟨acts, hs, hnew⟩ := h.first
    exact set hi hs hnew

/-! ## The context managers and the closed processes -/

theorem IncDone.env_mgr {why : Why} {res : Option RefId} (h : IncDone s i a rest p n strong why res s') :
    s'.ctxMgr = s.ctxMgr := by
  cases h with
  | object | failed | command | again => rfl

/-- Who sets the context manager of a context. -/
theorem exec_ctxMgr (he : s.exec L op = some s') : s'.ctxMgr = s.ctxMgr ∨
    ∃ i ok a act rest, op = .run i ok ∧ s.tasks[i]? = some ⟨a, act :: rest⟩ ∧
      ((∃ c n N, act = .becomeMgr c n ∧ s.node n = some N ∧
          s'.node = Function.update s.node n (some { N with
            localWeakRefs := N.localWeakRefs + 1, localStrongRefs := N.localStrongRefs + 1
            hasStrongRef := true, hasWeakRef := true }) ∧
          s'.ctxMgr = Function.update s.ctxMgr c (some n)) ∨
        ∃ p, act = .clearMgr p ∧ s.ctxFree (L.ctxOf p) = true ∧
          s'.ctxMgr = Function.update s.ctxMgr (L.ctxOf p) none) := by
  cases exec_cases he with
  | setCtxMgr _ _ _ hn => exact .inl (env_ctxMgr (initNode_env hn) :)
  | @run i ok a act rest _ ht h =>
    cases h with
    | becomeMgr hN => exact .inr ⟨i, ok, a, _, rest, rfl, ht, .inl ⟨_, _, _, rfl, hN, rfl, rfl⟩⟩
    | clearMgr hfree => exact .inr ⟨i, ok, a, _, rest, rfl, ht, .inr ⟨_, rfl, hfree, rfl⟩⟩
    | newNode h => exact .inl (env_ctxMgr (initNode_env h) :)
    | incFound _ _ _ hinc hdone | incNew hinc hdone =>
      exact .inl (hdone.env_mgr.trans (env_ctxMgr (incRef_env hinc)))
    | incNoMem _ _ hdone => exact .inl hdone.env_mgr
    | addRef _ _ h => exact .inl (env_ctxMgr (addRef_env h) :)
    | decNode h => exact .inl (env_ctxMgr (decNode_env h) :)
    | putNode h => exact .inl (env_ctxMgr (putNode_env h) :)
    | releaseHandle _ _ _ h | updateDec _ _ h => exact .inl (env_ctxMgr (decRef_env h) :)
    | cleanupRef h | releaseRefs _ _ h => exact .inl (env_ctxMgr (cleanupRef_env h) :)
    | updateInc _ _ h => exact .inl (env_ctxMgr (incRef_env h) :)
    | done _ _ h =>
      have henv := env_ctxMgr (decNilocked_env h)
      exact .inl henv
    | _ => exact .inl rfl
  | _ => exact .inl rfl

/-- Only `close` closes a process. -/
theorem exec_closes (he : s.exec L op = some s') :
    s'.closed = s.closed ∨ ∃ p, op = .close p ∧ s'.closed = Function.update s.closed p true := by
  cases exec_cases he with
  | setCtxMgr _ _ _ hn => exact .inl (env_closed (initNode_env hn) :)
  | @close p => exact .inr ⟨p, rfl, rfl⟩
  | run ht h => exact .inl h.closed
  | _ => exact .inl rfl

/-! ## The nodes that are freed -/

/-- A node of a process that `binder_dec_node_nilocked` wants to be freed is off its list. -/
theorem Node.dec_free_work (h : (N.dec strong internal).1 = true) (hp : N.proc.isSome = true) :
    (N.dec strong internal).2.work = none := by
  have hproc : (N.drop strong internal).proc = N.proc := by simp
  simp only [Node.dec] at h ⊢
  split at h
  · cases h
  · rename_i hh
    rw [if_neg hh]
    split at h
    · rename_i p hq
      split at h
      · cases h
      · rename_i hflags
        split at h
        · rename_i hu
          rw [if_neg hflags, if_pos hu]
        · cases h
    · rename_i hq
      rw [← hproc, hq] at hp
      cases hp

/-- A node that `binder_dec_node` frees is on no list, or the code stops. -/
theorem decNode_freed (h : s.decNode n strong internal = some s') (hN : s.node n = some N)
    (hg : s'.node n = none) :
    (N.dec strong internal).1 = true ∧ (N.dec strong internal).2.work = none := by
  simp only [RefState.decNode, RefState.decNilocked, bind, Option.bind_eq_some_iff,
    Option.guard_eq_some', exists_const] at h
  obtain ⟨⟨free, s₁⟩, ⟨N', hN', hstop, hs₁⟩, h⟩ := h
  rw [hN] at hN'
  cases hN'
  split at hs₁
  · rename_i hf
    refine ⟨hf, ?_⟩
    cases hp : N.proc with
    | some p => exact Node.dec_free_work hf (by rw [hp]; rfl)
    | none => simpa [hf, hp] using hstop
  · cases hs₁
    cases h
    simp [RefState.setNode] at hg

theorem putNode_freed (h : s.putNode n = some s') (hN : s.node n = some N) (hg : s'.node n = none) :
    (N.put.dec false true).1 = true ∧ (N.put.dec false true).2.work = none := by
  simp only [RefState.putNode, bind, Option.bind_eq_some_iff, Option.guard_eq_some',
    exists_const] at h
  obtain ⟨N', hN', -, h⟩ := h
  rw [hN] at hN'
  cases hN'
  exact decNode_freed h (Function.update_self ..) hg

/-- `binder_cleanup_ref_olocked` ends with `binder_dec_node_nilocked` of the node without the
reference. -/
theorem cleanupRef_dec (h : s.cleanupRef r = some s') :
    ∃ (R : Ref) (N : Node) (w : Option WorkList) (s₂ s₃ : RefState), s.ref r = some R ∧
    s.node R.node = some N ∧
    s₂.node = Function.update s.node R.node (some (N.unref r (R.strong != 0) w)) ∧
    s₂.decNode R.node false true = some s₃ ∧ s'.node = s₃.node := by
  simp only [RefState.cleanupRef, bind, Option.bind_eq_some_iff] at h
  obtain ⟨R, hR, h⟩ := h
  split at h
  · rename_i hs
    have hstrong : (R.strong != 0) = true := by simpa using hs
    simp only [Option.bind_eq_some_iff] at h
    obtain ⟨⟨free, s₁⟩, h₁, s₂, hs₂, M, hM, s₃, h₃, h⟩ := h
    cases hs₂
    cases h
    obtain ⟨N, ns, hN, -, rfl, -⟩ := decNilocked_cases h₁
    obtain ⟨w, hw, -⟩ := N.dec_eq true true
    simp only [RefState.setNode, Function.update_self, Option.some.injEq] at hM
    subst hM
    refine ⟨R, N, w, _, s₃, hR, hN, ?_, h₃, rfl⟩
    simp [RefState.setNode, hw, Node.unref, hstrong]
  · rename_i hs
    have hstrong : (R.strong != 0) = false := by simpa using hs
    simp only [Option.bind_eq_some_iff] at h
    obtain ⟨s₂, hs₂, N, hN, s₃, h₃, h⟩ := h
    cases hs₂
    cases h
    refine ⟨R, N, N.work, _, s₃, hR, hN, ?_, h₃, rfl⟩
    simp [RefState.setNode, Node.unref, hstrong, Node.drop]

theorem cleanupRef_freed (h : s.cleanupRef r = some s') (hN : s.node n = some N)
    (hg : s'.node n = none) : ∃ R w, s.ref r = some R ∧ R.node = n ∧
      ((N.unref r (R.strong != 0) w).dec false true).1 = true ∧
        ((N.unref r (R.strong != 0) w).dec false true).2.work = none := by
  obtain ⟨R, N', w, s₂, s₃, hR, hN', hs₂, h₃, hnode⟩ := cleanupRef_dec h
  rw [hnode] at hg
  by_cases hn : n = R.node
  · subst hn
    rw [hN] at hN'
    cases hN'
    exact ⟨R, w, hR, rfl, decNode_freed h₃ (by rw [hs₂, Function.update_self]) hg⟩
  · have hold : s₂.node n = some N := by rw [hs₂, Function.update_of_ne hn, hN]
    obtain ⟨M, -, ⟨-, rfl⟩ | ⟨-, rfl⟩⟩ := decNode_cases h₃ <;>
      simp [RefState.setNode, RefState.freeNode, hn, hold] at hg

/-- No node is freed: at most one has changed. -/
def Stays (s s' : RefState) : Prop :=
  s'.node = s.node ∨ ∃ m M, s'.node = Function.update s.node m (some M)

theorem Stays.not_gone (h : Stays s s') (hN : s.node n = some N) : s'.node n ≠ none := by
  rcases h with h | ⟨m, M, h⟩
  · rw [h, hN]
    exact Option.some_ne_none N
  · rw [h, Function.update_apply]
    split <;> simp [hN]

theorem initNode_stays {ptr cookie : Nat} (h : s.initNode p ptr cookie = some (n, s')) : Stays s s' := by
  rcases initNode_cases h with ⟨N, -, -, rfl⟩ | ⟨-, -, rfl⟩
  · exact .inr ⟨_, _, rfl⟩
  · exact .inr ⟨_, _, rfl⟩

theorem incRef_stays {ok : Bool} (h : s.incRef L r strong list = some (ok, s')) : Stays s s' := by
  obtain ⟨R, -, ⟨-, -, rfl⟩ | ⟨-, -, rfl⟩ | ⟨-, -, N, -, -, rfl⟩⟩ := incRef_cases h
  · exact .inl rfl
  · exact .inl rfl
  · exact .inr ⟨_, _, rfl⟩

theorem decRef_stays {last : Bool} (ht : Tables s) (h : s.decRef r strong = some (last, s')) :
    Stays s s' := by
  obtain ⟨R, -, ⟨-, rfl, -⟩ | ⟨-, -, -, rfl⟩ | ⟨-, -, -, N, -, rfl⟩⟩ :=
    decRef_cases h fun R hR => ht.onNode r R hR
  · exact .inl rfl
  · exact .inl rfl
  · exact .inr ⟨_, _, rfl⟩

theorem IncDone.node {why : Why} {res : Option RefId} (h : IncDone s i a rest p n strong why res s') :
    s'.node = s.node := by
  cases h with
  | object | failed | command | again => rfl

/-- A step of a task frees a node in one of the ways, which is on no list then, or it frees none. -/
theorem ActStep.freed {ok : Bool} (ht : Tables s) (h : ActStep L s i a rest act s')
    (hi : s.tasks[i]? = some ⟨a, act :: rest⟩) (hN : s.node n = some N) (hgone : s'.node n = none) :
    ∃ M, FreesNode L s n (.run i ok) M ∧ M.work = none := by
  have stays (h : Stays s s') : ∃ M, FreesNode L s n (.run i ok) M ∧ M.work = none :=
    absurd hgone (h.not_gone hN)
  cases h with
  | @decNode m strong s₁ hd =>
    obtain ⟨M, -, ⟨-, rfl⟩ | ⟨-, hs₁⟩⟩ := decNode_cases hd
    · exact stays (.inr ⟨_, _, rfl⟩)
    · by_cases hm : n = m
      · subst hm
        obtain ⟨hf, hw⟩ := decNode_freed hd hN hgone
        exact ⟨_, .decNode hi hN hf, hw⟩
      · subst hs₁
        simp [RefState.setTask, RefState.freeNode, hm, hN] at hgone
  | @putNode m s₁ hd =>
    obtain ⟨M, -, -, ⟨-, rfl⟩ | ⟨-, hs₁⟩⟩ := putNode_cases hd
    · exact stays (.inr ⟨_, _, rfl⟩)
    · by_cases hm : n = m
      · subst hm
        obtain ⟨hf, hw⟩ := putNode_freed hd hN hgone
        exact ⟨_, .putNode hi hN hf, hw⟩
      · subst hs₁
        simp [RefState.setTask, RefState.freeNode, hm, hN] at hgone
  | cleanupRef hc =>
    obtain ⟨R, w, hR, hn, hf, hw⟩ := cleanupRef_freed hc hN hgone
    exact ⟨_, .cleanupRef hi (.inl ⟨_, rfl⟩) hR hn hN hf, hw⟩
  | releaseRefs _ _ hc =>
    obtain ⟨R, w, hR, hn, hf, hw⟩ := cleanupRef_freed hc hN hgone
    exact ⟨_, .cleanupRef hi (.inr ⟨_, rfl⟩) hR hn hN hf, hw⟩
  | @nodeReleaseFree p m M hM hr h1 =>
    by_cases hm : n = m
    · subst hm
      rw [hN] at hM
      cases hM
      exact ⟨_, .nodeRelease hi hN hr h1, rfl⟩
    · simp [RefState.setTask, RefState.freeNode, hm, hN] at hgone
  | checksFail | checks | newNodeFail | translateBinderFail | translateHandleFail | translateBinder
  | translateHandle | incAlloc | releaseEnd | releaseSkip | freeBuf | updateNone | doneBad | dropEnd
  | clearMgr | clearNone | setDead | releaseNodesEnd | releaseRefsEnd => exact stays (.inl rfl)
  | translateOwn | releaseBinder | becomeMgr | dropWork | releaseNodes | nodeRelease =>
    exact stays (.inr ⟨_, _, rfl⟩)
  | newNode hn => exact stays (initNode_stays hn :)
  | incFound _ _ _ hinc hdone | incNew hinc hdone =>
    have := incRef_stays hinc
    rw [Stays, ← hdone.node] at this
    exact stays this
  | incNoMem _ _ hdone => exact stays (.inl hdone.node)
  | addRef _ _ ha =>
    obtain ⟨M, qs, -, -, rfl⟩ := addRef_eq ha
    exact stays (.inr ⟨_, _, rfl⟩)
  | releaseHandle _ _ _ hd | updateDec _ _ hd => exact stays (decRef_stays ht hd :)
  | updateInc _ _ hinc => exact stays (incRef_stays hinc :)
  | @done m kind M free s₁ hM _ hd =>
    obtain ⟨K, ns, hK, -, rfl, -⟩ := decNilocked_cases hd
    refine stays (.inr ⟨m, (K.dec kind false).2, ?_⟩)
    simp [RefState.setTask, RefState.addMsgs, RefState.setNode]

/-- A node that is gone has been freed, and was on no list then. -/
theorem exec_freed (ht : Tables s) (he : s.exec L op = some s') (hN : s.node n = some N)
    (hgone : s'.node n = none) : ∃ M, FreesNode L s n op M ∧ M.work = none := by
  have stays (h : Stays s s') : ∃ M, FreesNode L s n op M ∧ M.work = none :=
    absurd hgone (h.not_gone hN)
  cases exec_cases he with
  | transaction | binderFound | handle | doneCommand | tell | nodeInfo | showNode =>
    exact stays (.inr ⟨_, _, rfl⟩)
  | reply | binderNew | fails | send | freeBuffer | update | updateMgr | threadExit | close =>
    exact stays (.inl rfl)
  | @tellFree x m M _ _ hM _ hp hw =>
    by_cases hm : n = m
    · subst hm
      rw [hN] at hM
      cases hM
      exact ⟨_, .readNode hN hp hw, rfl⟩
    · simp [RefState.addMsgs, RefState.freeNode, hm, hN] at hgone
  | setCtxMgr _ _ _ hn => exact stays (initNode_stays hn :)
  | run hi h => exact h.freed ht hi hN hgone

/-! ## What a step does to a node -/

/-- A node that is there after a step is an old one, or it is new. -/
def Turned (L : Layout) (s : RefState) (n : NodeId) (op : RefOp) (N' : Node) : Prop :=
  (∃ N, s.node n = some N ∧ Turns L s n op N N') ∨
    (n = s.nextNode ∧ ∃ p ptr cookie, N' = .fresh p ptr cookie)

namespace Turned

theorem of_same (hN' : s'.node n = some N') (hs : s'.node = s.node) : Turned L s n op N' :=
  .inl ⟨N', by rw [← hs, hN'], .same⟩

theorem of_update (hN' : s'.node n = some N') {M M' : Node} (hM : s.node m = some M)
    (hs : s'.node = Function.update s.node m (some M')) (h : m = n → Turns L s n op M M') :
    Turned L s n op N' := by
  rw [hs, Function.update_apply] at hN'
  split at hN'
  · rename_i hn
    subst hn
    cases hN'
    exact .inl ⟨M, hM, h rfl⟩
  · exact .inl ⟨N', hN', .same⟩

theorem of_gone (hN' : s'.node n = some N') (hs : s'.node = Function.update s.node m none) :
    Turned L s n op N' := by
  rw [hs, Function.update_apply] at hN'
  split at hN'
  · cases hN'
  · exact .inl ⟨N', hN', .same⟩

end Turned

theorem incRef_turns {ok done : Bool} (h : s.incRef L r strong list = some (done, s'))
    (hi : s.tasks[i]? = some ⟨a, act :: rest⟩) (hr : Raises s r strong list act)
    (hN' : s'.node n = some N') : Turned L s n (.run i ok) N' := by
  obtain ⟨R, hR, ⟨-, -, rfl⟩ | ⟨-, -, rfl⟩ | ⟨-, -, M, hM, hok, rfl⟩⟩ := incRef_cases h
  · exact .of_same hN' rfl
  · exact .of_same hN' rfl
  · refine .of_update hN' hM rfl fun hn => ?_
    subst hn
    exact .inc hok hi hr hR rfl

theorem decRef_turns {ok last : Bool} (ht : Tables s) (h : s.decRef r strong = some (last, s'))
    (hN' : s'.node n = some N') : Turned L s n (.run i ok) N' := by
  obtain ⟨R, hR, ⟨-, rfl, -⟩ | ⟨-, -, -, rfl⟩ | ⟨hc, -, rfl, M, hM, rfl⟩⟩ :=
    decRef_cases h fun R hR => ht.onNode r R hR
  · exact .of_same hN' rfl
  · exact .of_same hN' rfl
  · exact .of_update hN' hM rfl fun hn => .decRef hR hn hc

theorem cleanupRef_turns {ok : Bool} (ht : Tables s) (h : s.cleanupRef r = some s')
    (hN' : s'.node n = some N') : Turned L s n (.run i ok) N' := by
  obtain ⟨R, M, w, hR, hM, hw, ⟨hf, rfl⟩ | ⟨-, rfl⟩⟩ := cleanupRef_cases h fun R hR => ht.onNode r R hR
  · exact .of_update hN' hM rfl fun hn => .cleanupRef hR hn hw hf
  · exact .of_gone hN' rfl

theorem initNode_turns {ptr cookie : Nat} (h : s.initNode p ptr cookie = some (m, s'))
    (hN' : s'.node n = some N') : Turned L s n op N' := by
  rcases initNode_cases h with ⟨M, -, hM, rfl⟩ | ⟨-, rfl, hs'⟩
  · exact .of_update hN' hM rfl fun _ => .take
  · rw [hs'] at hN'
    simp only [RefState.setNode, Function.update_apply] at hN'
    split at hN'
    · cases hN'
      exact .inr ⟨‹_›, p, ptr, cookie, rfl⟩
    · exact .inl ⟨N', hN', .same⟩

theorem ActStep.turns {ok : Bool} (ht : Tables s) (h : ActStep L s i a rest act s')
    (hi : s.tasks[i]? = some ⟨a, act :: rest⟩) (hN' : s'.node n = some N') :
    Turned L s n (.run i ok) N' := by
  cases h with
  | checksFail | checks | newNodeFail | translateBinderFail | translateHandleFail | translateBinder
  | translateHandle | incAlloc | releaseEnd | releaseSkip | freeBuf | updateNone | doneBad | dropEnd
  | clearMgr | clearNone | setDead | releaseNodesEnd | releaseRefsEnd => exact .of_same hN' rfl
  | releaseBinder _ _ hM | releaseNodes _ hM => exact .of_update hN' hM rfl fun _ => .take
  | translateOwn hM hB hp =>
    refine .of_update hN' hM rfl fun hn => ?_
    subst hn
    rw [Node.inc_local]
    exact .translateOwn hp hi hB
  | newNode hn => exact initNode_turns hn hN'
  | incFound hact _ hr hinc hdone => exact incRef_turns hinc hi (.found hact hr) (hdone.node ▸ hN')
  | incNew hinc hdone => exact incRef_turns hinc hi .new (hdone.node ▸ hN')
  | incNoMem _ _ hdone => exact .of_same hN' hdone.node
  | addRef _ _ ha =>
    obtain ⟨M, qs, hM, -, rfl⟩ := addRef_eq ha
    exact .of_update hN' hM rfl fun _ => .addRef
  | decNode hd =>
    obtain ⟨M, hM, ⟨hf, rfl⟩ | ⟨-, rfl⟩⟩ := decNode_cases hd
    · refine .of_update hN' hM rfl fun hn => ?_
      subst hn
      exact .decNode hi hf
    · exact .of_gone hN' rfl
  | putNode hd =>
    obtain ⟨M, hM, -, ⟨hf, rfl⟩ | ⟨-, rfl⟩⟩ := putNode_cases hd
    · exact .of_update hN' hM rfl fun _ => .putNode hf
    · exact .of_gone hN' rfl
  | cleanupRef hc | releaseRefs _ _ hc => exact cleanupRef_turns ht hc hN'
  | releaseHandle _ _ _ hd | updateDec _ _ hd => exact decRef_turns ht hd hN'
  | updateInc _ hr hinc => exact incRef_turns hinc hi (.update hr rfl) hN'
  | @done m kind M free s₁ hM hp hd =>
    obtain ⟨K, ns, hK, -, rfl, -⟩ := decNilocked_cases hd
    simp only [RefState.setNode, Function.update_self, Option.some.injEq] at hK
    subst hK
    have hset : Function.update (Function.update s.node m (some (M.clearPending kind))) m
        (some ((M.clearPending kind).dec kind false).2) =
          Function.update s.node m (some ((M.clearPending kind).dec kind false).2) :=
      Function.update_idem ..
    exact .of_update hN' hM hset fun hn => .done (hn ▸ hi) hp
  | becomeMgr hM => exact .of_update hN' hM rfl fun hn => .becomeMgr (hn ▸ hi)
  | dropWork hact hM hw => exact .of_update hN' hM rfl fun _ => .dropWork hi hact hw
  | nodeReleaseFree => exact .of_gone hN' rfl
  | nodeRelease hM => exact .of_update hN' hM rfl fun hn => .nodeRelease (hn ▸ hi)

/-- A node after a step has changed in one of the ways, or it is new. -/
theorem exec_turns (ht : Tables s) (he : s.exec L op = some s')
    (hN' : s'.node n = some N') : Turned L s n op N' := by
  cases exec_cases he with
  | transaction _ htarget hM hp => exact .of_update hN' hM rfl fun hn => .transaction hp (hn ▸ htarget)
  | binderFound _ _ _ hM | handle _ _ _ _ _ hM | doneCommand _ _ hM | nodeInfo _ _ _ _ hM
  | showNode _ hM => exact .of_update hN' hM rfl fun _ => .take
  | reply | binderNew | fails | send | freeBuffer | update | updateMgr | threadExit | close =>
    exact .of_same hN' rfl
  | tell _ hM _ hp hw => exact .of_update hN' hM rfl fun hn => hn ▸ .readNode hp hw
  | tellFree => exact .of_gone hN' rfl
  | setCtxMgr _ _ _ hn => exact initNode_turns hn hN'
  | run hi h => exact h.turns ht hi hN'

/-! ## The nodes after a step -/

theorem exec_nextNode (ht : Tables s) (he : s.exec L op = some s') : s.nextNode ≤ s'.nextNode :=
  ((exec_refStep he ht.fresh).next ht).1

theorem node_ident (hN : s.node n = some N) : s.ident n = some (N.ptr, N.cookie, N.proc) :=
  ident_some.mpr ⟨N, hN, rfl, rfl, rfl⟩

/-- A node is there while a task has a temporary reference on it. -/
theorem Tmp.node (h : Tmp s) {t : Task} (ht : t ∈ s.tasks) (hput : .putNode n ∈ t.acts) :
    ∃ N, s.node n = some N := by
  obtain ⟨i, hi⟩ := List.getElem?_of_mem ht
  have hle := le_acting (f := Act.tmp n) hi hput
  have htmp := h n
  simp only [Act.tmp, if_true] at hle
  cases hN : s.node n with
  | none =>
    simp only [RefState.tmpOf, hN, Option.map_none, Option.getD_none] at htmp
    omega
  | some N => exact ⟨N, rfl⟩

/-- A node that is about to be released is that of one worker, whose process is closed. -/
theorem Good.leaving (hg : Good L s) (hi : s.tasks[i]? = some ⟨a, .nodeRelease p n :: rest⟩) :
    Leaving s p n ∧ s.closed p = true ∧ ∃ N, s.node n = some N ∧ N.proc = some p := by
  have hl : Leaving s p n := hg.shape.leaving (List.mem_of_getElem? hi) List.mem_cons_self
  obtain ⟨j, rest', hj⟩ := hl
  obtain ⟨-, ptr, cookie, hid⟩ := hg.links.leaving ⟨j, rest', hj⟩
  obtain ⟨N, hN, -, -, hp⟩ := ident_some.mp hid
  exact ⟨⟨j, rest', hj⟩, hg.shape.worker p _ (List.mem_of_getElem? hj), N, hN, hp⟩

/-- A node after a step is an old one, with its pointer and its process, unless that releases it; or
it is new. -/
theorem exec_old (hg : Good L s) (he : s.exec L op = some s') (hN' : s'.node n = some N') :
    (∃ N, s.node n = some N ∧ N'.ptr = N.ptr ∧ (N'.proc = N.proc ∨
      (N'.proc = none ∧ ∃ p, Leaving s p n ∧ N.proc = some p ∧ s.closed p = true))) ∨
    (n = s.nextNode ∧ ∃ x, N'.proc = some (L.procOf x) ∧ s.getNode (L.procOf x) N'.ptr = none ∧
      s.closed (L.procOf x) = false ∧ n ∈ s'.nodes (L.procOf x)) := by
  have hid' := node_ident hN'
  have old (hi : s'.ident n = s.ident n) : ∃ N, s.node n = some N ∧ N'.ptr = N.ptr ∧ (N'.proc = N.proc ∨
      (N'.proc = none ∧ ∃ p, Leaving s p n ∧ N.proc = some p ∧ s.closed p = true)) := by
    rw [hid'] at hi
    obtain ⟨N, hN, hptr, -, hp⟩ := ident_some.mp hi.symm
    exact ⟨N, hN, hptr.symm, .inl hp.symm⟩
  cases exec_nodeStep hg.tables hg.tmp hg.shape he with
  | keep hi | find _ hi | unlink _ _ hi => exact .inl (old (by rw [hi]))
  | @free m M hM hi =>
    refine .inl (old ?_)
    rw [hi, Function.update_apply] at hid' ⊢
    split at hid'
    · cases hid'
    · rw [if_neg ‹_›]
  | @new x m ptr cookie hm hnone hopen hi hns =>
    by_cases hn : n = m
    · subst hn
      rw [hi, Function.update_self] at hid'
      simp only [Option.some.injEq, Prod.mk.injEq] at hid'
      refine .inr ⟨hm, x, hid'.2.2.symm, hid'.1 ▸ hnone, hopen, ?_⟩
      rw [hns, Function.update_self]
      exact mem_insertPtr.mpr (.inl rfl)
    · exact .inl (old (by rw [hi, Function.update_of_ne hn]))
  | @reset i a p m M rest ht hM hi =>
    by_cases hn : n = m
    · subst hn
      obtain ⟨hl, hc, N, hN, hp⟩ := hg.leaving ht
      rw [hi, Function.update_self] at hid'
      simp only [Option.some.injEq, Prod.mk.injEq] at hid'
      rw [hM] at hN
      cases hN
      exact .inl ⟨M, hM, hid'.1.symm, .inr ⟨hid'.2.2.symm, p, hl, hp, hc⟩⟩
    · exact .inl (old (by rw [hi, Function.update_of_ne hn]))
  | @gone i a p m rest ht hi =>
    by_cases hn : n = m
    · subst hn
      rw [hi, Function.update_self] at hid'
      cases hid'
    · exact .inl (old (by rw [hi, Function.update_of_ne hn]))

/-- A node in a tree after a step was there, or it is new. -/
theorem exec_mem (hg : Good L s) (he : s.exec L op = some s') (hn : n ∈ s'.nodes p) :
    n ∈ s.nodes p ∨ n = s.nextNode := by
  cases exec_nodeStep hg.tables hg.tmp hg.shape he with
  | keep _ hns | find _ _ hns | reset _ _ _ hns | gone _ _ hns => exact .inl (by rwa [← hns])
  | free _ _ hns =>
    rw [hns] at hn
    exact .inl (mem_freeNode hn)
  | @new x m ptr cookie hm _ _ _ hns =>
    rw [hns, Function.update_apply] at hn
    split at hn
    · rename_i hp
      subst hp
      rcases mem_insertPtr.mp hn with hn | hn
      · exact .inr (hn.trans hm)
      · exact .inl hn
    · exact .inl hn
  | @unlink q m ns _ hns _ hns' =>
    rw [hns', Function.update_apply] at hn
    split at hn
    · rename_i hp
      subst hp
      exact .inl (by rw [hns]; exact List.mem_cons_of_mem _ hn)
    · exact .inl hn

/-- A process that is not closed keeps what it finds, but for a node that is freed. -/
theorem exec_getNode {ptr : Nat} (hg : Good L s) (he : s.exec L op = some s') (hp : s'.closed p = false)
    (hnone : s'.getNode p ptr = none) :
    s.closed p = false ∧ (s.getNode p ptr = none ∨ ∃ m, s.getNode p ptr = some m ∧ s'.node m = none) := by
  have hg' := hg.exec he
  have hopen : s.closed p = false := by
    rcases exec_closes he with hc | ⟨q, -, hc⟩
    · rwa [← hc]
    · rw [hc, Function.update_apply] at hp
      split at hp
      · cases hp
      · exact hp
  refine ⟨hopen, ?_⟩
  cases hm : s.getNode p ptr with
  | none => exact .inl rfl
  | some m =>
    refine .inr ⟨m, rfl, ?_⟩
    by_contra hne
    obtain ⟨M', hM'⟩ := Option.ne_none_iff_exists'.mp hne
    obtain ⟨hmem, M, hM, hptr⟩ := getNode_some hm
    obtain ⟨_, _, hid⟩ := hg.links.own hmem
    obtain ⟨M₁, hM₁, -, -, hMp⟩ := ident_some.mp hid
    rw [hM] at hM₁
    cases hM₁
    have hproc : M'.proc = some p ∧ M'.ptr = ptr := by
      rcases exec_old hg he hM' with ⟨M₁, hM₁, hptr', hp' | ⟨-, q, -, hq, hc⟩⟩ | ⟨hnew, -⟩
      · rw [hM] at hM₁
        cases hM₁
        exact ⟨hp'.trans hMp, hptr'.trans hptr⟩
      · rw [hM] at hM₁
        cases hM₁
        rw [hMp] at hq
        cases hq
        rw [hopen] at hc
        cases hc
      · have hlt := hg.tables.nodeLt m M hM
        rw [hnew] at hlt
        exact absurd hlt (lt_irrefl _)
    have hid' := node_ident hM'
    rw [hproc.1] at hid'
    rcases hg'.links.linked hid' with hmem' | ⟨j, rest, hj⟩
    · exact hg'.links.ptrOf_ne hnone hmem' ((ptrOf_some hM').trans hproc.2)
    · rw [hg'.shape.worker p _ (List.mem_of_getElem? hj)] at hp
      cases hp

end Redroid.Binder.Refs
