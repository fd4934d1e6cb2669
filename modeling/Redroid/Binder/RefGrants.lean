import Redroid.Binder.RefLocks

/-!
# Who gave a reference

* `Granted`: what in the past of a run lets a task give a process a reference: it is a transaction into
  that process and carried an object of the owner of the node, or of a process with a reference to the
  node; or it is a command on handle 0, and the node is the context manager.
* `MgrHeld`: one task holds the lock of a context, and the node of a command is the context manager.
* `Backed`: what is so granted, for the acts that are on the way to it.
* `refs_granted`: every step that makes a reference, or raises its strong count from 0, runs an act that
  was granted it.
-/

namespace Redroid.Binder.Refs

open RefState

/-- The task `i`, of the thread `x`, was building a transaction to `p` in the buffer `b`, in the state
`t` of the past, and went on with the object `o`. -/
structure Carried (past : List (RefState × RefOp)) (i : Nat) (x : ThreadId) (p : ProcId) (b : BufId)
    (o : FlatObject) (t : RefState) : Prop where
  object : (t, .object i o) ∈ past
  task : ∃ target rest, t.tasks[i]? = some ⟨.thread x, .build x b target :: rest⟩
  buf : ∃ B, t.bufs[b]? = some B ∧ B.proc = p

/-- The task `i` may give the process `p` a reference to the node `n`, a strong one or a weak one. The
command that a task is for is that of the step which began it. -/
inductive Granted (L : Layout) (past : List (RefState × RefOp)) (s : RefState) (i : Nat) :
    Why → ProcId → NodeId → Bool → Option ThreadId → Prop
  | binder {t x b o p n N} : Carried past i x p b o t → o.isBinder = true → s.node n = some N →
      N.proc = some (L.procOf x) → N.ptr = o.binder →
      Granted L past s i (.object b) p n o.strong (some x)
  | handle {t x b o p r R} : Carried past i x p b o t → o.isBinder = false → t.ref r = some R →
      R.proc = L.procOf x → R.desc = o.handle → (o.strong = true → R.strong ≠ 0) →
      Granted L past s i (.object b) p R.node o.strong none
  | command {t x n strong} : (t, .refCommand x 0 true strong) ∈ past → t.tasks.length = i →
      t.ctxMgr (L.ctxOf (L.procOf x)) = some n → s.ctxMgr (L.ctxOf (L.procOf x)) = some n →
      Granted L past s i (.command (L.ctxOf (L.procOf x))) (L.procOf x) n strong none

/-- The step `op` makes the reference `r`, with the process, the number and the node of `R` and without
counts: in `binder_inc_ref_for_node` of a task that may give the reference. -/
def Makes (L : Layout) (past : List (RefState × RefOp)) (s : RefState) (op : RefOp) (s' : RefState)
    (r : RefId) (R : Ref) : Prop :=
  ∃ i ok a why strong list rest, op = .run i ok ∧ s.exec L op = some s' ∧
    s.tasks[i]? = some ⟨a, .newRef why R.proc R.node strong list :: rest⟩ ∧ s.ref r = none ∧
    s'.ref r = some ⟨R.proc, R.desc, R.node, 0, 0⟩ ∧ Granted L past s i why R.proc R.node strong list

/-- The step `op` is in `binder_inc_ref_for_node` of a task that may give the process of `R` a strong
reference to its node: `r` is found, in the first lookup or the second, or is the new one. -/
def GoesStrong (L : Layout) (past : List (RefState × RefOp)) (s : RefState) (op : RefOp) (r : RefId)
    (R : Ref) : Prop :=
  ∃ i ok a act why list rest, op = .run i ok ∧ s.tasks[i]? = some ⟨a, act :: rest⟩ ∧
    (act = .incRef why R.proc R.node true list ∨ act = .newRef why R.proc R.node true list ∨
      act = .incNewRef why R.proc R.node r true list) ∧ Granted L past s i why R.proc R.node true list

/-- The process of a buffer. -/
def RefState.bufProc (s : RefState) (b : BufId) : Option ProcId := s.bufs[b]?.map Buffer.proc

/-- The act is one of the translation of an object, of `binder_inc_ref_for_node`, or of
`binder_ioctl_set_ctx_mgr`. -/
def Act.grants : Act → Bool
  | .newNode .. | .translateBinder .. | .translateHandle .. | .incRef .. | .newRef .. | .incNewRef ..
  | .becomeMgr .. => true
  | _ => false

/-- The context and the node of a command on handle 0. -/
def Act.mgrNode : Act → Option (CtxId × NodeId)
  | .incRef (.command c) _ n .. | .newRef (.command c) _ n .. | .incNewRef (.command c) _ n .. =>
    some (c, n)
  | _ => none

/-- One task holds the lock of a context, and the node of a command is the context manager. -/
structure MgrHeld (s : RefState) : Prop where
  excl : ∀ (i j : Nat) (t u : Task) act act' c, s.tasks[i]? = some t → s.tasks[j]? = some u →
    act ∈ t.acts → act' ∈ u.acts → act.ctx = some c → act'.ctx = some c → i = j
  mgr : ∀ t ∈ s.tasks, ∀ act ∈ t.acts, ∀ c n, act.mgrNode = some (c, n) → s.ctxMgr c = some n

/-- The past has what the act of the task `i` is about. -/
def Backed (L : Layout) (past : List (RefState × RefOp)) (s : RefState) (i : Nat) : Act → Prop
  | .newNode x b o => ∃ t p, Carried past i x p b o t ∧ s.bufProc b = some p ∧ o.isBinder = true
  | .translateBinder x b n o => ∃ t p N, Carried past i x p b o t ∧ s.bufProc b = some p ∧
      o.isBinder = true ∧ s.node n = some N ∧ N.proc = some (L.procOf x) ∧ N.ptr = o.binder
  | .translateHandle x b n strong => ∃ t p o r R, Carried past i x p b o t ∧ s.bufProc b = some p ∧
      o.isBinder = false ∧ o.strong = strong ∧ t.ref r = some R ∧ R.proc = L.procOf x ∧
      R.desc = o.handle ∧ R.node = n ∧ (strong = true → R.strong ≠ 0)
  | .incRef why p n strong list | .newRef why p n strong list | .incNewRef why p n _ strong list =>
    Granted L past s i why p n strong list
  | _ => True

/-- A step gives the task `i` the act. -/
inductive NewAct (L : Layout) (s s' : RefState) : RefOp → Nat → Act → Prop
  | found {i a x b target rest o n} : s.tasks[i]? = some ⟨a, .build x b target :: rest⟩ →
      o.isBinder = true → s.getNode (L.procOf x) o.binder = some n →
      NewAct L s s' (.object i o) i (.translateBinder x b n o)
  | missing {i a x b target rest o} : s.tasks[i]? = some ⟨a, .build x b target :: rest⟩ →
      o.isBinder = true → NewAct L s s' (.object i o) i (.newNode x b o)
  | handle {i a x b target rest o r R} : s.tasks[i]? = some ⟨a, .build x b target :: rest⟩ →
      o.isBinder = false → s.getRef (L.procOf x) o.handle o.strong = some r → s.ref r = some R →
      NewAct L s s' (.object i o) i (.translateHandle x b R.node o.strong)
  | newNode {i ok a x b o rest n s₁} : s.tasks[i]? = some ⟨a, .newNode x b o :: rest⟩ →
      s.initNode (L.procOf x) o.binder o.cookie = some (n, s₁) → s'.node = s₁.node →
      NewAct L s s' (.run i ok) i (.translateBinder x b n o)
  | translateBinder {i ok a x b n o rest B} :
      s.tasks[i]? = some ⟨a, .translateBinder x b n o :: rest⟩ → s.bufs[b]? = some B →
      NewAct L s s' (.run i ok) i (.incRef (.object b) B.proc n o.strong (some x))
  | translateHandle {i ok a x b n strong rest B} :
      s.tasks[i]? = some ⟨a, .translateHandle x b n strong :: rest⟩ → s.bufs[b]? = some B →
      NewAct L s s' (.run i ok) i (.incRef (.object b) B.proc n strong none)
  | alloc {i ok a why p n strong list rest} :
      s.tasks[i]? = some ⟨a, .incRef why p n strong list :: rest⟩ →
      NewAct L s s' (.run i ok) i (.newRef why p n strong list)
  | add {i ok a why p n strong list rest r} :
      s.tasks[i]? = some ⟨a, .newRef why p n strong list :: rest⟩ →
      NewAct L s s' (.run i ok) i (.incNewRef why p n r strong list)
  | command {x n strong} : s.ctxFree (L.ctxOf (L.procOf x)) = true →
      s.ctxMgr (L.ctxOf (L.procOf x)) = some n →
      NewAct L s s' (.refCommand x 0 true strong) s.tasks.length
        (.incRef (.command (L.ctxOf (L.procOf x))) (L.procOf x) n strong none)
  | setCtxMgr {x ptr cookie n} : s.ctxFree (L.ctxOf (L.procOf x)) = true →
      NewAct L s s' (.setCtxMgr x ptr cookie) s.tasks.length
        (.becomeMgr (L.ctxOf (L.procOf x)) n)

variable {L : Layout} {past : List (RefState × RefOp)} {s s' s₁ : RefState} {n : NodeId} {N N' : Node}
  {p : ProcId} {b : BufId} {B : Buffer} {x : ThreadId} {r : RefId} {R R' : Ref} {i j : Nat} {a : Actor}
  {act act' : Act} {rest acts : List Act} {op : RefOp} {o : FlatObject} {strong : Bool}
  {list : Option ThreadId} {why : Why}

/-! ## The acts of a task -/

theorem releaseActs_grants {failed : Bool} : ∀ act ∈ releaseActs b B failed, act.grants = false := by
  intro act hact
  simp only [releaseActs, List.mem_append, List.mem_map, List.mem_cons, List.not_mem_nil,
    or_false] at hact
  rcases hact with ⟨m, -, rfl⟩ | rfl | hact | rfl
  · rfl
  · rfl
  · split at hact
    · obtain ⟨m, -, rfl⟩ := List.mem_map.mp hact
      rfl
    · cases hact
  · rfl

theorem IncDone.grants {res : Option RefId} (h : IncDone s i a rest p n strong why res s') :
    ∃ acts, s'.tasks = s.tasks.set i ⟨a, acts⟩ ∧ ∀ act' ∈ acts, act'.grants = true → act' ∈ rest := by
  cases h with
  | object | command => exact ⟨_, rfl, fun _ h _ => h⟩
  | failed =>
    refine ⟨_, rfl, fun act' hact hg => ?_⟩
    rcases List.mem_cons.mp hact with rfl | hact
    · cases hg
    · rw [releaseActs_grants act' hact] at hg
      cases hg
  | again => exact ⟨_, rfl, by simp +contextual [Act.grants]⟩

/-- With which of these acts a task goes on. -/
theorem ActStep.grants {ok : Bool} (h : ActStep L s i a rest act s')
    (hi : s.tasks[i]? = some ⟨a, act :: rest⟩) :
    ∃ acts, s'.tasks = s.tasks.set i ⟨a, acts⟩ ∧ ∀ act' ∈ acts, act'.grants = true →
      act' ∈ rest ∨ NewAct L s s' (.run i ok) i act' := by
  have env {s₁ : RefState} {acts : List Act} (h : s₁.env = s.env)
      (hacts : ∀ act' ∈ acts, act'.grants = true →
        act' ∈ rest ∨ NewAct L s (s₁.setTask i a acts) (.run i ok) i act') :
      ∃ acts', (s₁.setTask i a acts).tasks = s.tasks.set i ⟨a, acts'⟩ ∧ ∀ act' ∈ acts', act'.grants = true →
        act' ∈ rest ∨ NewAct L s (s₁.setTask i a acts) (.run i ok) i act' :=
    ⟨acts, by rw [← env_tasks h]; rfl, hacts⟩
  have keep : ∀ act' ∈ rest, act'.grants = true → act' ∈ rest ∨ NewAct L s s' (.run i ok) i act' :=
    fun _ h _ => .inl h
  have released {b : BufId} {B : Buffer} (pre : List Act) (hpre : ∀ act' ∈ pre, act'.grants = false) :
      ∀ act' ∈ pre ++ releaseActs b B true, act'.grants = true →
        act' ∈ rest ∨ NewAct L s s' (.run i ok) i act' := by
    intro act' hact hg
    have : act'.grants = false := by
      rcases List.mem_append.mp hact with hact | hact
      · exact hpre act' hact
      · exact releaseActs_grants act' hact
    rw [this] at hg
    cases hg
  have first {act' : Act} (hnew : NewAct L s s' (.run i ok) i act') :
      ∀ act'' ∈ act' :: rest, act''.grants = true → act'' ∈ rest ∨ NewAct L s s' (.run i ok) i act'' := by
    intro act'' hact _
    rcases List.mem_cons.mp hact with rfl | hact
    · exact .inr hnew
    · exact .inl hact
  cases h with
  | newNodeFail => exact ⟨_, rfl, released [] (by simp)⟩
  | translateBinderFail | translateHandleFail => exact ⟨_, rfl, released [_] (by simp [Act.grants])⟩
  | newNode h =>
    refine env (initNode_env h) fun act' hact hg => ?_
    rcases List.mem_cons.mp hact with rfl | hact
    · exact .inr (.newNode hi h rfl)
    rcases List.mem_cons.mp hact with rfl | hact
    · cases hg
    · exact .inl hact
  | translateBinder _ hB => exact ⟨_, rfl, first (.translateBinder hi hB)⟩
  | translateHandle _ hB => exact ⟨_, rfl, first (.translateHandle hi hB)⟩
  | incFound _ _ _ hinc hdone | incNew hinc hdone =>
    rw [← env_tasks (incRef_env hinc)]
    obtain ⟨acts, hs, hacts⟩ := hdone.grants
    exact ⟨acts, hs, fun act' h hg => .inl (hacts act' h hg)⟩
  | incNoMem _ _ hdone =>
    obtain ⟨acts, hs, hacts⟩ := hdone.grants
    exact ⟨acts, hs, fun act' h hg => .inl (hacts act' h hg)⟩
  | incAlloc => exact ⟨_, rfl, first (.alloc hi)⟩
  | addRef _ _ h => exact env (addRef_env h) (first (.add hi))
  | checksFail | checks | translateOwn | releaseEnd | releaseSkip | releaseBinder | freeBuf | updateNone
  | doneBad | becomeMgr | dropEnd | clearMgr | clearNone | setDead | releaseNodesEnd | releaseNodes
  | nodeReleaseFree | nodeRelease | releaseRefsEnd =>
    exact ⟨_, rfl, by simp +contextual [Act.grants]⟩
  | decNode h => exact env (decNode_env h) keep
  | putNode h => exact env (putNode_env h) keep
  | @releaseHandle _ _ _ _ last _ _ _ _ h | @updateDec _ _ _ _ last _ _ _ h =>
    refine env (decRef_env h) ?_
    cases last <;> simp +contextual [Act.grants]
  | cleanupRef h => exact env (cleanupRef_env h) keep
  | updateInc _ _ h => exact env (incRef_env h) keep
  | releaseRefs _ _ h => exact env (cleanupRef_env h) (by simp +contextual [Act.grants])
  | @done _ _ _ _ s₁ _ _ h =>
    have htasks := env_tasks (decNilocked_env h)
    exact ⟨rest, congrArg (List.set · i _) htasks, keep⟩
  | dropWork hact =>
    refine ⟨_, rfl, ?_⟩
    rcases hact with ⟨l, rfl⟩ | ⟨p, rfl⟩ <;> simp +contextual [Act.grants]

/-- Such an act of a task after a step was one of it before, or the step gives it. -/
theorem exec_grants (he : s.exec L op = some s') {t : Task} (hj : s'.tasks[j]? = some t) (hact : act ∈ t.acts)
    (hg : act.grants = true) :
    (∃ t', s.tasks[j]? = some t' ∧ act ∈ t'.acts) ∨ NewAct L s s' op j act := by
  have set {i : Nat} {a : Actor} {act₀ : Act} {rest acts : List Act}
      (hi : s.tasks[i]? = some ⟨a, act₀ :: rest⟩) (hs : s'.tasks = s.tasks.set i ⟨a, acts⟩)
      (hnew : ∀ act' ∈ acts, act'.grants = true → act' ∈ act₀ :: rest ∨ NewAct L s s' op i act') :
      (∃ t', s.tasks[j]? = some t' ∧ act ∈ t'.acts) ∨ NewAct L s s' op j act := by
    by_cases hij : i = j
    · subst hij
      rw [hs, List.getElem?_set_self (List.getElem?_eq_some_iff.mp hi).1] at hj
      cases hj
      exact (hnew act hact hg).imp_left fun h => ⟨_, hi, h⟩
    · rw [hs, List.getElem?_set_ne hij] at hj
      exact .inl ⟨t, hj, hact⟩
  have add {a : Actor} {acts : List Act} (hs : s'.tasks = s.tasks ++ [⟨a, acts⟩])
      (hnew : ∀ act' ∈ acts, act'.grants = true → NewAct L s s' op s.tasks.length act') :
      (∃ t', s.tasks[j]? = some t' ∧ act ∈ t'.acts) ∨ NewAct L s s' op j act := by
    by_cases hlt : j < s.tasks.length
    · rw [hs, List.getElem?_append_left hlt] at hj
      exact .inl ⟨t, hj, hact⟩
    · have hjt : j = s.tasks.length ∧ t = ⟨a, acts⟩ := by
        rw [hs, List.getElem?_append_right (Nat.le_of_not_lt hlt)] at hj
        have h0 := (List.getElem?_eq_some_iff.mp hj).1
        simp only [List.length_singleton] at h0
        obtain rfl : j = s.tasks.length := by omega
        simp at hj
        exact ⟨rfl, hj.symm⟩
      obtain ⟨rfl, rfl⟩ := hjt
      exact .inr (hnew act hact hg)
  have none {acts : List Act} (h : ∀ act' ∈ acts, act'.grants = false) (k : Nat) :
      ∀ act' ∈ acts, act'.grants = true → NewAct L s s' op k act' := by
    intro act' hact' hg'
    rw [h act' hact'] at hg'
    cases hg'
  cases exec_cases he with
  | transaction | reply | update | doneCommand | nodeInfo | showNode | threadExit | close =>
    exact add rfl (none (by simp [Act.grants]) _)
  | updateMgr _ hfree hm =>
    refine add rfl fun act' hact' _ => ?_
    rw [List.mem_singleton] at hact'
    subst hact'
    exact .command hfree hm
  | freeBuffer => exact add rfl (none releaseActs_grants _)
  | setCtxMgr _ hfree _ hn =>
    refine add (by rw [← env_tasks (initNode_env hn)]; rfl) fun act' hact' hg' => ?_
    rcases List.mem_cons.mp hact' with rfl | hact'
    · exact .setCtxMgr hfree
    · rw [List.mem_singleton.mp hact'] at hg'
      cases hg'
  | tell | tellFree => exact .inl ⟨t, hj, hact⟩
  | binderFound hi hb hget =>
    refine set hi rfl fun act' hact' hg' => ?_
    rcases List.mem_cons.mp hact' with rfl | hact'
    · exact .inr (.found hi hb hget)
    rcases List.mem_cons.mp hact' with rfl | hact'
    · cases hg'
    · exact .inl hact'
  | binderNew hi hb =>
    refine set hi rfl fun act' hact' hg' => ?_
    rcases List.mem_cons.mp hact' with rfl | hact'
    · exact .inr (.missing hi hb)
    · exact .inl hact'
  | handle hi hb _ hr hR =>
    refine set hi rfl fun act' hact' hg' => ?_
    rcases List.mem_cons.mp hact' with rfl | hact'
    · exact .inr (.handle hi hb hr hR)
    rcases List.mem_cons.mp hact' with rfl | hact'
    · cases hg'
    · exact .inl hact'
  | fails _ hi =>
    refine set hi rfl fun act' hact' hg' => ?_
    rw [releaseActs_grants act' hact'] at hg'
    cases hg'
  | @send _ _ _ _ target _ _ hi =>
    refine set hi rfl fun act' hact' hg' => ?_
    rcases List.mem_append.mp hact' with hact' | hact'
    · obtain ⟨k, -, rfl⟩ := List.mem_map.mp hact'
      cases hg'
    · exact .inl (List.mem_cons_of_mem _ hact')
  | run hi h =>
    obtain ⟨acts, hs, hacts⟩ := h.grants hi
    exact set hi hs fun act' hact' hg' => (hacts act' hact' hg').imp_left (List.mem_cons_of_mem _)

/-! ## The locks of the contexts -/

theorem Act.grants_of_ctx {c : CtxId} (h : act.ctx = some c) : act.grants = true := by
  unfold Act.ctx at h
  split at h <;> first | rfl | cases h

theorem Act.ctx_of_mgrNode {c : CtxId} (h : act.mgrNode = some (c, n)) : act.ctx = some c := by
  unfold Act.mgrNode at h
  split at h <;> cases h <;> rfl

/-- A task with the lock of a context had it before the step, or it begins and has found the lock free. -/
theorem exec_ctx {c : CtxId} (he : s.exec L op = some s') {t : Task} (hj : s'.tasks[j]? = some t)
    (hact : act ∈ t.acts) (hc : act.ctx = some c) :
    (∃ t' act₀, s.tasks[j]? = some t' ∧ act₀ ∈ t'.acts ∧ act₀.ctx = some c ∧ act₀.mgrNode = act.mgrNode) ∨
      (j = s.tasks.length ∧ s.ctxFree c = true ∧ (∀ i ok, op ≠ .run i ok) ∧
        ∀ n, act.mgrNode = some (c, n) → s.ctxMgr c = some n) := by
  rcases exec_grants he hj hact (Act.grants_of_ctx hc) with ⟨t', hj', hact'⟩ | hnew
  · exact .inl ⟨t', act, hj', hact', hc, rfl⟩
  cases hnew with
  | found | missing | handle | newNode | translateBinder | translateHandle => cases hc
  | @alloc i ok a why p n strong list rest hi | @add i ok a why p n strong list rest r hi =>
    cases why with
    | object => cases hc
    | command => exact .inl ⟨_, _, hi, List.mem_cons_self, hc, rfl⟩
  | command hfree hm =>
    cases hc
    refine .inr ⟨rfl, hfree, fun _ _ h => (by cases h), fun n hn => ?_⟩
    cases hn
    exact hm
  | setCtxMgr hfree =>
    cases hc
    exact .inr ⟨rfl, hfree, fun _ _ h => (by cases h), fun n hn => by cases hn⟩

theorem ctxFree_iff {c : CtxId} : s.ctxFree c = true ↔ ∀ t ∈ s.tasks, ∀ act ∈ t.acts, act.ctx ≠ some c := by
  simp [RefState.ctxFree]

theorem MgrHeld.exec (h : MgrHeld s) (hs : Shape L s) (he : s.exec L op = some s') : MgrHeld s' := by
  refine ⟨fun i j t u act act' c hi hj hact hact' hc hc' => ?_, fun t ht act hact c n hn => ?_⟩
  · rcases exec_ctx he hi hact hc with ⟨t₀, act₀, hi₀, hact₀, hc₀, -⟩ | ⟨rfl, hfree, -⟩
    · rcases exec_ctx he hj hact' hc' with ⟨u₀, act₁, hj₀, hact₁, hc₁, -⟩ | ⟨-, hfree, -⟩
      · exact h.excl i j t₀ u₀ act₀ act₁ c hi₀ hj₀ hact₀ hact₁ hc₀ hc₁
      · exact absurd hc₀ (ctxFree_iff.mp hfree t₀ (List.mem_of_getElem? hi₀) act₀ hact₀)
    · rcases exec_ctx he hj hact' hc' with ⟨u₀, act₁, hj₀, hact₁, hc₁, -⟩ | ⟨rfl, -⟩
      · exact absurd hc₁ (ctxFree_iff.mp hfree u₀ (List.mem_of_getElem? hj₀) act₁ hact₁)
      · rfl
  · obtain ⟨j, hj⟩ := List.getElem?_of_mem ht
    rcases exec_ctx he hj hact (Act.ctx_of_mgrNode hn) with ⟨t₀, act₀, hj₀, hact₀, hc₀, hmgr⟩ |
      ⟨-, -, hop, hold⟩
    · have ht₀ := List.mem_of_getElem? hj₀
      have hold := h.mgr t₀ ht₀ act₀ hact₀ c n (hmgr.trans hn)
      rcases exec_ctxMgr he with hsame | ⟨i, ok, a, act', rest, rfl, hi, ⟨c', m, M, rfl, -, -, hset⟩ |
        ⟨p, rfl, hfree, hset⟩⟩
      · rwa [hsame]
      · rw [hset, Function.update_apply, if_neg, hold]
        -- the one task with the lock would be that of the command
        rintro rfl
        obtain rfl : i = j := h.excl i j _ t₀ _ act₀ c hi hj₀ List.mem_cons_self hact₀ rfl hc₀
        rw [hi] at hj₀
        cases hj₀
        obtain ⟨x, -, -, rfl⟩ := (hs.task _ (List.mem_of_getElem? hi)).ofBecomes
        have hnone : act₀.mgrNode = none := by
          rcases List.mem_cons.mp hact₀ with rfl | hact₀
          · rfl
          · rw [List.mem_singleton.mp hact₀]
            rfl
        rw [hmgr, hn] at hnone
        cases hnone
      · rw [hset, Function.update_apply, if_neg, hold]
        rintro rfl
        exact ctxFree_iff.mp hfree t₀ ht₀ act₀ hact₀ hc₀
    · rcases exec_ctxMgr he with hsame | ⟨i, ok, -, -, -, rfl, -⟩
      · rw [hsame]
        exact hold n hn
      · exact absurd rfl (hop i ok)

theorem MgrHeld.start : MgrHeld start :=
  ⟨fun i _ t _ _ _ _ hi => (by cases hi), fun t ht => by cases ht⟩

theorem mgrHeld_of_reach (h : (refSys L).Reach s) : MgrHeld s :=
  (Sys.Reach.inv (I := fun s => Good L s ∧ MgrHeld s) (by rintro _ rfl; exact ⟨good_start, .start⟩)
    (fun _ _ _ hi he => ⟨hi.1.exec he, hi.2.exec hi.1.shape he⟩) h).2

/-! ## The buffers -/

/-- A buffer stays in its process. -/
theorem exec_bufProc (he : s.exec L op = some s') (hb : s.bufProc b = some p) : s'.bufProc b = some p := by
  have same (h : s'.bufs = s.bufs) : s'.bufProc b = some p := by rwa [RefState.bufProc, h]
  have set {c : BufId} {C C' : Buffer} (hC : s.bufs[c]? = some C) (hs : s'.bufs = s.bufs.set c C')
      (hp : C'.proc = C.proc) : s'.bufProc b = some p := by
    by_cases hcb : c = b
    · subst hcb
      have hlt := (List.getElem?_eq_some_iff.mp hC).1
      simp only [RefState.bufProc, hC, hs, List.getElem?_set_self hlt, Option.map_some] at hb ⊢
      rw [hp, hb]
    · rwa [RefState.bufProc, hs, List.getElem?_set_ne hcb]
  have add {C : Buffer} (hs : s'.bufs = s.bufs ++ [C]) : s'.bufProc b = some p := by
    obtain ⟨B, hB, -⟩ := Option.map_eq_some_iff.mp hb
    rwa [RefState.bufProc, hs, List.getElem?_append_left (List.getElem?_eq_some_iff.mp hB).1]
  have inc {s₁ : RefState} {i : Nat} {a : Actor} {rest : List Act} {p' n strong why res} (h : s₁.env = s.env)
      (hd : IncDone s₁ i a rest p' n strong why res s') : s'.bufProc b = some p := by
    have hbufs := env_bufs h
    cases hd with
    | @object c r C hC =>
      have hs := congrArg (List.set · c { C with objects := C.objects ++
        [.ofHandle strong (s₁.descOf r)] }) hbufs
      have hC' : s.bufs[c]? = some C := hbufs ▸ hC
      exact set hC' hs rfl
    | @failed c C hC =>
      have hs := congrArg (List.set · c { C with status := .releasing }) hbufs
      have hC' : s.bufs[c]? = some C := hbufs ▸ hC
      exact set hC' hs rfl
    | command | again => exact same hbufs
  cases exec_cases he with
  | transaction | update | updateMgr | doneCommand | nodeInfo | showNode | threadExit | close | tell
  | tellFree | binderFound | binderNew | handle => exact same rfl
  | reply => exact add rfl
  | freeBuffer _ hB => exact set hB rfl rfl
  | setCtxMgr _ _ _ hn => exact same (env_bufs (initNode_env hn) :)
  | fails _ _ hB => exact set hB rfl rfl
  | send _ hB => exact set hB rfl rfl
  | run hi h =>
    cases h with
    | checks => exact add rfl
    | checksFail | translateBinder | translateHandle | incAlloc | releaseEnd | releaseSkip | releaseBinder
    | updateNone | doneBad | becomeMgr | dropWork | dropEnd | clearMgr | clearNone | setDead
    | releaseNodesEnd | releaseNodes | nodeReleaseFree | nodeRelease | releaseRefsEnd => exact same rfl
    | newNodeFail hB | translateBinderFail hB | translateHandleFail hB | freeBuf hB => exact set hB rfl rfl
    | translateOwn _ hB => exact set hB rfl rfl
    | newNode h => exact same (env_bufs (initNode_env h) :)
    | incFound _ _ _ hinc hdone | incNew hinc hdone => exact inc (incRef_env hinc) hdone
    | incNoMem _ _ hdone => exact inc rfl hdone
    | addRef _ _ h => exact same (env_bufs (addRef_env h) :)
    | decNode h => exact same (env_bufs (decNode_env h) :)
    | putNode h => exact same (env_bufs (putNode_env h) :)
    | releaseHandle _ _ _ h | updateDec _ _ h => exact same (env_bufs (decRef_env h) :)
    | cleanupRef h | releaseRefs _ _ h => exact same (env_bufs (cleanupRef_env h) :)
    | updateInc _ _ h => exact same (env_bufs (incRef_env h) :)
    | done _ _ h =>
      have hbufs := env_bufs (decNilocked_env h)
      exact same hbufs

/-! ## The acts on the way to a reference -/

theorem Granted.mono {past' : List (RefState × RefOp)} (h : Granted L past s i why p n strong list)
    (hp : ∀ y ∈ past, y ∈ past') (hn : list.isSome = true → ∀ N, s.node n = some N → ∃ N', s'.node n = some N' ∧
      N'.proc = N.proc ∧ N'.ptr = N.ptr) (hc : ∀ c, why = .command c → s'.ctxMgr c = some n) :
    Granted L past' s' i why p n strong list := by
  cases h with
  | binder ht hb hN hproc hptr =>
    obtain ⟨N', hN', hproc', hptr'⟩ := hn rfl _ hN
    exact .binder ⟨hp _ ht.object, ht.task, ht.buf⟩ hb hN' (hproc'.trans hproc) (hptr'.trans hptr)
  | handle ht hb hR hproc hd hs => exact .handle ⟨hp _ ht.object, ht.task, ht.buf⟩ hb hR hproc hd hs
  | command hmem hi hm => exact .command (hp _ hmem) hi hm (hc _ rfl)

/-- A node that a task sends is the same after a step. -/
theorem offered_stays (hg : Good L s) (hk : Locked L s') (he : s.exec L op = some s') {t : Task}
    (ht : t ∈ s'.tasks)
    (hact : act ∈ t.acts) (hoff : act.offers = some n) (hN : s.node n = some N) :
    ∃ N', s'.node n = some N' ∧ N'.proc = N.proc ∧ N'.ptr = N.ptr := by
  obtain ⟨-, x, N', -, hN', hp⟩ := hk.offers t ht act hact n hoff
  rcases exec_old hg he hN' with ⟨K, hK, hptr, hKp | ⟨hnone, -⟩⟩ | ⟨hnew, -⟩
  · rw [hN] at hK
    cases hK
    exact ⟨N', hN', hKp, hptr⟩
  · rw [hp] at hnone
    cases hnone
  · exact absurd (hg.tables.nodeLt n N hN) (hnew ▸ lt_irrefl _)

/-- What an act is about stays so. -/
theorem Backed.next (h : Backed L past s j act) (hg : Good L s) (hk' : Locked L s') (hm' : MgrHeld s')
    (he : s.exec L op = some s') {t : Task} (ht : t ∈ s'.tasks) (hact : act ∈ t.acts) :
    Backed L ((s, op) :: past) s' j act := by
  have mono {i x p b o t'} (hc : Carried past i x p b o t') : Carried ((s, op) :: past) i x p b o t' :=
    ⟨List.mem_cons_of_mem _ hc.object, hc.task, hc.buf⟩
  have old : ∀ y ∈ past, y ∈ (s, op) :: past := fun y hy => List.mem_cons_of_mem _ hy
  cases act with
  | newNode x b o =>
    obtain ⟨t', p, hc, hb, ho⟩ := h
    exact ⟨t', p, mono hc, exec_bufProc he hb, ho⟩
  | translateBinder x b n o =>
    obtain ⟨t', p, N, hc, hb, ho, hN, hp, hptr⟩ := h
    obtain ⟨N', hN', hp', hptr'⟩ := offered_stays hg hk' he ht hact rfl hN
    exact ⟨t', p, N', mono hc, exec_bufProc he hb, ho, hN', hp'.trans hp, hptr'.trans hptr⟩
  | translateHandle x b n strong =>
    obtain ⟨t', p, o, r, R, hc, hb, h⟩ := h
    exact ⟨t', p, o, r, R, mono hc, exec_bufProc he hb, h⟩
  | incRef why p n strong list | newRef why p n strong list | incNewRef why p n r strong list =>
    refine Granted.mono h old (fun hsome N hN => ?_) fun c hwhy => ?_
    · obtain ⟨x, rfl⟩ := Option.isSome_iff_exists.mp hsome
      exact offered_stays hg hk' he ht hact rfl hN
    · subst hwhy
      exact hm'.mgr t ht _ hact c n rfl
  | _ => trivial

/-- The acts of all tasks are backed. -/
def AllBacked (L : Layout) (past : List (RefState × RefOp)) (s : RefState) : Prop :=
  ∀ (j : Nat) (t : Task), s.tasks[j]? = some t → ∀ act ∈ t.acts, act.grants = true → Backed L past s j act

theorem AllBacked.exec (h : AllBacked L past s) (hg : Good L s) (hk' : Locked L s') (hm' : MgrHeld s')
    (he : s.exec L op = some s') : AllBacked L ((s, op) :: past) s' := by
  intro j t hj act hact hgr
  have ht := List.mem_of_getElem? hj
  rcases exec_grants he hj hact hgr with ⟨t', hj', hact'⟩ | hnew
  · exact (h j t' hj' act hact' hgr).next hg hk' hm' he ht hact
  -- the act of the step, as the state before it has it
  have before {act₀ : Act} {a : Actor} {rest : List Act} (hi : s.tasks[j]? = some ⟨a, act₀ :: rest⟩)
      (h₀ : act₀.grants = true) : Backed L past s j act₀ := h j _ hi act₀ List.mem_cons_self h₀
  have old : ∀ y ∈ past, y ∈ (s, op) :: past := fun y hy => List.mem_cons_of_mem _ hy
  have build {a : Actor} {x : ThreadId} {b : BufId} {target : Option NodeId} {rest : List Act} {o : FlatObject}
      (hi : s.tasks[j]? = some ⟨a, .build x b target :: rest⟩) (hop : op = .object j o) :
      ∃ p, Carried ((s, op) :: past) j x p b o s ∧ s'.bufProc b = some p := by
    subst hop
    obtain ⟨rfl, rfl⟩ := (hg.shape.task _ (List.mem_of_getElem? hi)).build
    obtain ⟨B, hB, -⟩ := hg.builds.build _ (List.mem_of_getElem? hi) x b target List.mem_cons_self
    exact ⟨B.proc, ⟨List.mem_cons_self, ⟨target, [], hi⟩, B, hB, rfl⟩,
      exec_bufProc he (by rw [RefState.bufProc, hB]; rfl)⟩
  have owned {n : NodeId} (hoff : act.offers = some n) {N : Node} (hN : s.node n = some N) :=
    offered_stays hg hk' he ht hact hoff hN
  cases hnew with
  | found hi hb hget =>
    obtain ⟨p, hc, hbuf⟩ := build hi rfl
    obtain ⟨hmem, N, hN, hptr⟩ := getNode_some hget
    obtain ⟨K, hK, hp⟩ := hg.links.node hmem
    rw [hN] at hK
    cases hK
    obtain ⟨N', hN', hp', hptr'⟩ := owned rfl hN
    exact ⟨s, p, N', hc, hbuf, hb, hN', hp'.trans hp, hptr'.trans hptr⟩
  | missing hi hb =>
    obtain ⟨p, hc, hbuf⟩ := build hi rfl
    exact ⟨s, p, hc, hbuf, hb⟩
  | @handle i a x b target rest o r R hi hb hr hR =>
    obtain ⟨p, hc, hbuf⟩ := build hi rfl
    obtain ⟨K, hK, hp, hd, hs⟩ := getRef_some hg.tables hr
    rw [hR] at hK
    cases hK
    exact ⟨s, p, o, r, R, hc, hbuf, hb, rfl, hR, hp, hd, rfl, hs⟩
  | @newNode i ok a x b o rest n s₁ hi hinit hnode =>
    obtain ⟨t₀, p, hc, hbuf, hb⟩ := before hi rfl
    refine ⟨t₀, p, ?_⟩
    have hc' : Carried ((s, .run j ok) :: past) j x p b o t₀ := ⟨old _ hc.object, hc.task, hc.buf⟩
    rcases initNode_cases hinit with ⟨N, hget, hN, rfl⟩ | ⟨-, rfl, rfl⟩
    · obtain ⟨hmem, K, hK, hptr⟩ := getNode_some hget
      obtain ⟨K', hK', hp⟩ := hg.links.node hmem
      rw [hN] at hK hK'
      cases hK
      cases hK'
      exact ⟨{ N with tmpRefs := N.tmpRefs + 1 }, hc', exec_bufProc he hbuf, hb,
        by rw [hnode]; exact Function.update_self .., hp, hptr⟩
    · exact ⟨.fresh (L.procOf x) o.binder o.cookie, hc', exec_bufProc he hbuf, hb,
        by rw [hnode]; exact Function.update_self .., rfl, rfl⟩
  | @translateBinder i ok a x b n o rest B hi hB =>
    obtain ⟨t₀, p, N, hc, hbuf, hb, hN, hp, hptr⟩ := before hi rfl
    have hBp : B.proc = p := by simpa [RefState.bufProc, hB] using hbuf
    obtain ⟨N', hN', hp', hptr'⟩ := owned rfl hN
    exact hBp ▸ .binder ⟨old _ hc.object, hc.task, hc.buf⟩ hb hN' (hp'.trans hp) (hptr'.trans hptr)
  | @translateHandle i ok a x b n strong rest B hi hB =>
    obtain ⟨t₀, p, o, r, R, hc, hbuf, hb, rfl, hR, hRp, hRd, rfl, hs⟩ := before hi rfl
    have hBp : B.proc = p := by simpa [RefState.bufProc, hB] using hbuf
    exact hBp ▸ .handle ⟨old _ hc.object, hc.task, hc.buf⟩ hb hR hRp hRd hs
  | @alloc i ok a why p n strong list rest hi | @add i ok a why p n strong list rest r hi =>
    refine Granted.mono (before hi rfl :) old (fun hsome N hN => ?_) fun c hwhy => ?_
    · obtain ⟨x, rfl⟩ := Option.isSome_iff_exists.mp hsome
      exact owned rfl hN
    · subst hwhy
      exact hm'.mgr t ht _ hact c n rfl
  | command _ hm => exact .command List.mem_cons_self rfl hm (hm'.mgr t ht _ hact _ _ rfl)
  | setCtxMgr => trivial

/-! ## Every run -/

theorem backed_of_run (h : (refSys L).Run past s) : AllBacked L past s := by
  induction h with
  | init h0 =>
    cases h0
    intro j t hj
    simp [start] at hj
  | @step past s s' op hrun hst ih =>
    obtain ⟨hg, hl, hk⟩ := locked_of_reach hrun.reach
    exact ih.exec hg (hk.exec hg hl hst) (mgrHeld_of_reach (hrun.reach.next hst)) hst

/-- A new reference: the task of the step was granted it. -/
theorem created_granted (h : (refSys L).Run past s) (he : s.exec L op = some s') (hnone : s.ref r = none)
    (hR : s'.ref r = some R) : Makes L past s op s' r R := by
  have ht := (good_of_reach h.reach).tables
  have old (hs : s'.ref = s.ref) : False := by
    rw [hs, hnone] at hR
    cases hR
  have set {k : RefId} {K K' : Ref} (hK : s.ref k = some K) (hs : s'.ref = Function.update s.ref k (some K')) :
      False := by
    rw [hs, Function.update_apply] at hR
    split at hR
    · rename_i hk
      rw [hk, hK] at hnone
      cases hnone
    · rw [hnone] at hR
      cases hR
  cases exec_refStep he ht.fresh with
  | same hs => exact (old hs.ref).elim
  | inc _ _ hi hs =>
    obtain ⟨K, hK, ⟨-, -, rfl⟩ | ⟨-, -, rfl⟩ | ⟨-, -, N, -, -, rfl⟩⟩ := incRef_cases hi
    · exact (old hs.ref).elim
    · exact (set hK hs.ref).elim
    · exact (set hK hs.ref).elim
  | dec _ _ hd hs =>
    obtain ⟨K, hK, ⟨-, rfl, -⟩ | ⟨-, -, -, rfl⟩ | ⟨-, -, -, N, -, rfl⟩⟩ :=
      decRef_cases hd fun R hR => ht.onNode _ R hR
    · exact (old hs.ref).elim
    · exact (set hK hs.ref).elim
    · exact (set hK hs.ref).elim
  | @add i a why p n strong list rest ok s₁ _ hi _ ha hs =>
    obtain ⟨N, qs, -, -, rfl⟩ := addRef_eq ha
    have hR' := hR
    rw [hs.ref] at hR
    simp only [RefState.setRef, RefState.setNode, Function.update_apply] at hR
    split at hR
    · cases hR
      exact ⟨i, ok, a, why, strong, list, rest, rfl, he, hi, hnone, hR',
        backed_of_run h i _ hi _ List.mem_cons_self rfl⟩
    · rw [hnone] at hR
      cases hR
  | remove _ _ hc hs =>
    obtain ⟨K, N, w, -, -, -, ⟨-, rfl⟩ | ⟨-, rfl⟩⟩ := cleanupRef_cases hc fun R hR => ht.onNode _ R hR
    all_goals
      rw [hs.ref] at hR
      simp only [RefState.dropRef, RefState.setNode, RefState.freeNode, Function.update_apply] at hR
      split at hR
      · cases hR
      · rw [hnone] at hR
        cases hR

/-- A first strong count: the task of the step was granted a strong reference. -/
theorem strong_granted (h : (refSys L).Run past s) (he : s.exec L op = some s') (hz : s.countOf r true = 0)
    (hR : s'.ref r = some R) (hpos : R.strong ≠ 0) : GoesStrong L past s op r R := by
  obtain ⟨hg, -, hk⟩ := locked_of_reach h.reach
  have ht := hg.tables
  -- the reference had the same strong count, or none
  have old {K : Ref} (hK : s.ref r = some K) (hs : R.strong = K.strong) : False := by
    rw [countOf_some hK] at hz
    exact hpos (hs.trans hz)
  cases exec_refStep he ht.fresh with
  | same hs => exact (old (by rw [← hs.ref, hR]) rfl).elim
  | @inc i a act rest k strong list ok done s₁ _ hi hr hinc hs =>
    obtain ⟨K, hK, hcase⟩ := incRef_cases hinc
    have hraise : done = true ∧ s'.ref = Function.update s.ref k
      (some (K.setCount strong (K.count strong + 1))) := by
      rcases hcase with ⟨-, -, rfl⟩ | ⟨rfl, -, rfl⟩ | ⟨rfl, -, N, -, -, rfl⟩
      · exact (old (by rw [← hs.ref, hR]) rfl).elim
      · exact ⟨rfl, hs.ref⟩
      · exact ⟨rfl, hs.ref⟩
    rw [hraise.2, Function.update_apply] at hR
    split at hR
    swap
    · exact (old hR rfl).elim
    rename_i hrk
    subst hrk
    cases hR
    cases strong with
    | false => exact (old hK (by simp [Ref.setCount_strong])).elim
    | true =>
      simp only [GoesStrong, Ref.setCount_proc, Ref.setCount_node]
      cases hr with
      | @found _ why p n hact hget =>
        obtain ⟨K', hK', hp, hn⟩ := getRefForNode_some ht hget
        rw [hK] at hK'
        cases hK'
        subst hp hn
        refine ⟨i, ok, a, _, why, list, rest, rfl, hi, hact.imp_right .inl, ?_⟩
        rcases hact with rfl | rfl <;> exact backed_of_run h i _ hi _ List.mem_cons_self rfl
      | @new why p n =>
        obtain ⟨K', hK', hp, hn⟩ := hk.held i a _ rest p r hi (.inl ⟨why, n, true, list, rfl⟩)
        rw [hK] at hK'
        cases hK'
        obtain rfl := hn why n true list rfl
        subst hp
        exact ⟨i, ok, a, _, why, list, rest, rfl, hi, .inr (.inr rfl),
          backed_of_run h i _ hi _ List.mem_cons_self rfl⟩
      | update hget =>
        -- a handle with a strong count is needed
        obtain ⟨K', hK', -, -, hs'⟩ := getRef_some ht hget
        rw [hK] at hK'
        cases hK'
        rw [countOf_some hK] at hz
        exact absurd hz (hs' rfl)
  | @dec i a act rest p k strong ok last s₁ _ _ _ hd hs _ =>
    -- a count that is lowered is not 0
    have lower {K : Ref} (hK : s.ref k = some K) (hc : K.count strong ≠ 0)
        (href : s'.ref = Function.update s.ref k (some (K.setCount strong (K.count strong - 1)))) : False := by
      rw [href, Function.update_apply] at hR
      split at hR
      · rename_i hrk
        subst hrk
        cases hR
        cases strong with
        | false => exact old hK (by simp [Ref.setCount_strong])
        | true => exact hc (by rwa [countOf_some hK] at hz)
      · exact old hR rfl
    obtain ⟨K, hK, ⟨-, rfl, -⟩ | ⟨hc, -, -, rfl⟩ | ⟨hone, -, -, N, -, rfl⟩⟩ :=
      decRef_cases hd fun R hR => ht.onNode _ R hR
    · exact (old (by rw [← hs.ref, hR]) rfl).elim
    · exact (lower hK hc hs.ref).elim
    · exact (lower hK (by rw [hone]; decide) hs.ref).elim
  | @add i a why p n strong list rest ok s₁ _ hi _ ha hs =>
    obtain ⟨N, qs, -, -, rfl⟩ := addRef_eq ha
    rw [hs.ref] at hR
    simp only [RefState.setRef, RefState.setNode, Function.update_apply] at hR
    split at hR
    · cases hR
      exact absurd rfl hpos
    · exact (old hR rfl).elim
  | remove _ _ hc hs =>
    obtain ⟨K, N, w, -, -, -, ⟨-, rfl⟩ | ⟨-, rfl⟩⟩ := cleanupRef_cases hc fun R hR => ht.onNode _ R hR
    all_goals
      rw [hs.ref] at hR
      simp only [RefState.dropRef, RefState.setNode, RefState.freeNode, Function.update_apply] at hR
      split at hR
      · cases hR
      · exact (old hR rfl).elim

/-- In every run: a reference was made by a step that ran an act which had been granted it, and so is each
step that raises a strong count from 0, with the grant of a strong reference. -/
theorem refs_granted (h : (refSys L).Run past s) :
    (∀ r R, s.ref r = some R → ∃ past₀ t op t', (t, op) :: past₀ <:+ past ∧ Makes L past₀ t op t' r R) ∧
    (∀ op s' r R, s.exec L op = some s' → s.countOf r true = 0 → s'.ref r = some R → R.strong ≠ 0 →
      GoesStrong L past s op r R) := by
  refine ⟨?_, fun _ _ _ _ he hz hR hpos => strong_granted h he hz hR hpos⟩
  induction h with
  | init h0 =>
    cases h0
    intro r R hR
    simp [start] at hR
  | @step past s s' op hrun hst ih =>
    intro r R hR
    cases hold : s.ref r with
    | none => exact ⟨past, s, op, s', List.suffix_refl _, created_granted hrun hst hold hR⟩
    | some R₀ =>
      have ht := tables_of_reach hrun.reach
      rcases (exec_refStep hst ht.fresh).refs ht hR with ⟨K, hK, hp, hd, hn⟩ | ⟨rfl, -, -⟩
      · obtain ⟨past₀, t, op₀, t', hsuf, hmade⟩ := ih r K hK
        refine ⟨past₀, t, op₀, t', hsuf.trans (List.suffix_cons _ _), ?_⟩
        rwa [Makes, hp, hd, hn]
      · rw [ht.freshRef] at hold
        cases hold

/-- The process 1 acquires the context manager and sends it an object of its own, up to the count of the
new reference. -/
def sendObject : List RefOp :=
  acquireMgr ++ [.transaction 1 0, .run 2 true, .object 2 ⟨.binder, 5, 7⟩, .run 2 true, .run 2 true,
    .run 2 true, .run 2 true]

def beforeCount : RefState :=
  (Sys.execIf (RefState.exec oneThread) (fun _ _ => True) start sendObject).get (by decide)

def afterCount : RefState := (beforeCount.exec oneThread (.run 2 true)).get (by decide)

theorem refs_granted_beforeCount : ∃ past, (refSys oneThread).Run past beforeCount ∧
    (∃ past₀ t op t', (t, op) :: past₀ <:+ past ∧ Makes oneThread past₀ t op t' 0 ⟨1, 0, 0, 1, 0⟩) ∧
    (∃ past₀ t op t', (t, op) :: past₀ <:+ past ∧ Makes oneThread past₀ t op t' 1 ⟨0, 1, 1, 0, 0⟩) ∧
    GoesStrong oneThread past beforeCount (.run 2 true) 1 ⟨0, 1, 1, 1, 0⟩ := by
  have hreach : (refSys oneThread).Reach beforeCount :=
    Sys.ReachIf.execIf (.init rfl) (Option.some_get _).symm
  obtain ⟨past, hrun, -⟩ := hreach.run
  obtain ⟨hmade, hstrong⟩ := refs_granted hrun
  exact ⟨past, hrun, hmade 0 _ rfl, hmade 1 _ rfl,
    hstrong (.run 2 true) afterCount 1 _ (Option.some_get _).symm rfl rfl (by decide)⟩

end Redroid.Binder.Refs
