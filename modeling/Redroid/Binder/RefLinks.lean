import Redroid.Binder.RefCounts
import Redroid.Binder.RefTmp

/-!
# The nodes of a process

* `NodeStep`: what a step does to the trees of nodes and to the processes of the nodes.
* `Links`: the tree of a process has its nodes, with different pointers; a node of a process that is
  not closed is in its tree.
-/

namespace Redroid.Binder.Refs

open RefState

/-- `ptr`, `cookie` and `proc` of a node. -/
def Node.ident (N : Node) : Nat × Nat × Option ProcId := (N.ptr, N.cookie, N.proc)

/-- The identity of the node `n`, if there is one. -/
def RefState.ident (s : RefState) (n : NodeId) : Option (Nat × Nat × Option ProcId) :=
  (s.node n).map Node.ident

/-- The acts that `Links` is about. -/
def Act.isLink : Act → Bool
  | .nodeRelease .. | .becomeMgr .. => true
  | _ => false

/-- The acts of this kind after the step are those before it. -/
def SameLinks (s s' : RefState) : Prop :=
  ∀ t' ∈ s'.tasks, ∀ act ∈ t'.acts, act.isLink = true →
    ∃ t ∈ s.tasks, t.actor = t'.actor ∧ act ∈ t.acts

/-- The worker of `p` has taken the node `n` off the tree, and is about to release it. -/
def Leaving (s : RefState) (p : ProcId) (n : NodeId) : Prop :=
  ∃ (i : Nat) (rest : List Act), s.tasks[i]? = some ⟨.worker p, .nodeRelease p n :: rest⟩

/-- What a step does to the nodes. -/
inductive NodeStep (L : Layout) (s : RefState) : RefState → Prop
  | keep {s'} : s'.ident = s.ident → s'.nodes = s.nodes → SameLinks s s' → NodeStep L s s'
  | free {s' n N} : s.node n = some N → s'.ident = Function.update s.ident n none →
      s'.nodes = (s.freeNode n N.proc).nodes → SameLinks s s' → NodeStep L s s'
  | new {s' x n ptr cookie} : n = s.nextNode → s.getNode (L.procOf x) ptr = none →
      s.closed (L.procOf x) = false →
      s'.ident = Function.update s.ident n (some (ptr, cookie, some (L.procOf x))) →
      s'.nodes = Function.update s.nodes (L.procOf x) (s.insertPtr n ptr (s.nodes (L.procOf x))) →
      (∀ t' ∈ s'.tasks, ∀ act ∈ t'.acts, act.isLink = true →
        (∃ t ∈ s.tasks, t.actor = t'.actor ∧ act ∈ t.acts) ∨
          (t'.actor = .thread x ∧ act = .becomeMgr (L.ctxOf (L.procOf x)) n)) → NodeStep L s s'
  | find {s' x n ptr} : s.getNode (L.procOf x) ptr = some n → s'.ident = s.ident →
      s'.nodes = s.nodes →
      (∀ t' ∈ s'.tasks, ∀ act ∈ t'.acts, act.isLink = true →
        (∃ t ∈ s.tasks, t.actor = t'.actor ∧ act ∈ t.acts) ∨
          (t'.actor = .thread x ∧ act = .becomeMgr (L.ctxOf (L.procOf x)) n)) → NodeStep L s s'
  | unlink {s' p n ns} : s.closed p = true → s.nodes p = n :: ns → s'.ident = s.ident →
      s'.nodes = Function.update s.nodes p ns → Leaving s' p n →
      (∀ t' ∈ s'.tasks, ∀ act ∈ t'.acts, act.isLink = true →
        (∃ t ∈ s.tasks, t.actor = t'.actor ∧ act ∈ t.acts) ∨
          (t'.actor = .worker p ∧ act = .nodeRelease p n)) → NodeStep L s s'
  | reset {s' i a p n N rest} : s.tasks[i]? = some ⟨a, .nodeRelease p n :: rest⟩ →
      s.node n = some N → s'.ident = Function.update s.ident n (some (N.ptr, N.cookie, none)) →
      s'.nodes = s.nodes → s'.tasks = s.tasks.set i ⟨a, .putNode n :: rest⟩ → NodeStep L s s'
  | gone {s' i a p n rest} : s.tasks[i]? = some ⟨a, .nodeRelease p n :: rest⟩ →
      s'.ident = Function.update s.ident n none → s'.nodes = s.nodes →
      s'.tasks = s.tasks.set i ⟨a, rest⟩ → NodeStep L s s'

variable {L : Layout} {s s' s₁ : RefState} {m n : NodeId} {N N' : Node} {p : ProcId} {b : BufId}
  {B : Buffer} {x : ThreadId} {r : RefId} {i : Nat} {a : Actor} {act : Act} {rest acts : List Act}
  {op : RefOp} {strong internal : Bool} {list : Option ThreadId}

/-! ## The identities after an operation -/

theorem ident_of_node (he : s'.node = Function.update s.node m (some N')) (hN : s.node m = some N)
    (h : N'.ident = N.ident) : s'.ident = s.ident := by
  funext n
  simp only [RefState.ident, he, Function.update_apply]
  split
  · rename_i he
    simp [he, hN, h]
  · rfl

theorem ident_freeNode {q : Option ProcId} :
    (s.freeNode m q).ident = Function.update s.ident m none := by
  funext n
  simp only [RefState.ident, RefState.freeNode, Function.update_apply]
  split <;> rfl

theorem ident_setNode : (s.setNode m N).ident = Function.update s.ident m (some N.ident) := by
  funext n
  simp only [RefState.ident, RefState.setNode, Function.update_apply]
  split <;> rfl

@[simp] theorem Node.drop_ident : (N.drop strong internal).ident = N.ident := by
  unfold Node.drop
  split
  · split <;> rfl
  · split <;> rfl

@[simp] theorem Node.dec_ident : (N.dec strong internal).2.ident = N.ident := by
  obtain ⟨w, hw, -⟩ := N.dec_eq strong internal
  rw [hw]
  exact Node.drop_ident

theorem Node.inc_ident {mgr : Bool} : (N.inc strong true list mgr).2.ident = N.ident := by
  by_cases h : (N.inc strong true list mgr).1 = true
  · obtain ⟨w, hw, -⟩ := Node.inc_succeeds h
    rw [hw]
    cases strong <;> rfl
  · rw [Node.inc_failed (by simpa using h)]

/-- The identities and the trees are the same. -/
def Keeps (s s' : RefState) : Prop := s'.ident = s.ident ∧ s'.nodes = s.nodes

/-- One node is freed, and off its tree. -/
def Frees (s s' : RefState) : Prop := ∃ n N, s.node n = some N ∧
  s'.ident = Function.update s.ident n none ∧ s'.nodes = (s.freeNode n N.proc).nodes

theorem decNode_links (h : s.decNode m strong internal = some s') : Keeps s s' ∨ Frees s s' := by
  obtain ⟨N, hN, ⟨-, rfl⟩ | ⟨-, rfl⟩⟩ := decNode_cases h
  · exact .inl ⟨ident_of_node rfl hN Node.dec_ident, rfl⟩
  · exact .inr ⟨m, N, hN, ident_freeNode, rfl⟩

theorem putNode_links (h : s.putNode m = some s') : Keeps s s' ∨ Frees s s' := by
  obtain ⟨N, hN, -, ⟨-, rfl⟩ | ⟨-, rfl⟩⟩ := putNode_cases h
  · exact .inl ⟨ident_of_node rfl hN (by rw [Node.dec_ident]; rfl), rfl⟩
  · exact .inr ⟨m, N, hN, ident_freeNode, rfl⟩

theorem incRef_links {ok : Bool} (h : s.incRef L r strong list = some (ok, s')) : Keeps s s' := by
  obtain ⟨R, -, ⟨-, -, rfl⟩ | ⟨-, -, rfl⟩ | ⟨-, -, N, hN, hok, rfl⟩⟩ := incRef_cases h
  · exact ⟨rfl, rfl⟩
  · exact ⟨rfl, rfl⟩
  · exact ⟨ident_of_node rfl hN Node.inc_ident, rfl⟩

theorem decRef_links {last : Bool} (ht : Tables s) (h : s.decRef r strong = some (last, s')) :
    Keeps s s' := by
  obtain ⟨R, hR, ⟨-, rfl, -⟩ | ⟨-, -, -, rfl⟩ | ⟨-, -, -, N, hN, rfl⟩⟩ :=
    decRef_cases h fun R hR => ht.onNode r R hR
  · exact ⟨rfl, rfl⟩
  · exact ⟨rfl, rfl⟩
  · exact ⟨ident_of_node rfl hN Node.dec_ident, rfl⟩

theorem addRef_links (h : s.addRef L p m = some s') : Keeps s s' := by
  obtain ⟨N, qs, hN, -, rfl⟩ := addRef_eq h
  have hk : ({ N with refs := s.nextRef :: N.refs } : Node).ident = N.ident := rfl
  exact ⟨ident_of_node rfl hN hk, rfl⟩

theorem cleanupRef_links (ht : Tables s) (h : s.cleanupRef r = some s') :
    Keeps s s' ∨ Frees s s' := by
  obtain ⟨R, N, w, hR, hN, -, ⟨-, rfl⟩ | ⟨-, rfl⟩⟩ :=
    cleanupRef_cases h fun R hR => ht.onNode r R hR
  · have hk : ((N.unref r (R.strong != 0) w).dec false true).2.ident = N.ident := by
      rw [Node.dec_ident]
      exact Node.drop_ident
    exact .inl ⟨ident_of_node rfl hN hk, rfl⟩
  · refine .inr ⟨R.node, N, hN, ?_, rfl⟩
    exact (ident_freeNode (s := s) (q := N.proc) :)

/-! ## Every step -/

/-- A task that goes on has no new act of this kind. -/
theorem SameLinks.setTask (ht : s.tasks[i]? = some ⟨a, act :: rest⟩)
    (hs : s'.tasks = s.tasks.set i ⟨a, acts⟩)
    (hnew : ∀ act' ∈ acts, act'.isLink = true → act' ∈ act :: rest) : SameLinks s s' := by
  intro t' ht' act' hact' hl
  rw [hs] at ht'
  rcases List.mem_or_eq_of_mem_set ht' with ht' | rfl
  · exact ⟨t', ht', rfl, hact'⟩
  · exact ⟨_, List.mem_of_getElem? ht, rfl, hnew act' hact' hl⟩

theorem SameLinks.addTask (hs : s'.tasks = s.tasks ++ [⟨a, acts⟩])
    (hnew : ∀ act' ∈ acts, act'.isLink = false) : SameLinks s s' := by
  intro t' ht' act' hact' hl
  rw [hs, List.mem_append, List.mem_singleton] at ht'
  rcases ht' with ht' | rfl
  · exact ⟨t', ht', rfl, hact'⟩
  · rw [hnew act' hact'] at hl
    cases hl

theorem releaseActs_isLink {failed : Bool} :
    ∀ act ∈ releaseActs b B failed, act.isLink = false := by
  intro act hact
  simp only [releaseActs, List.mem_append, List.mem_map, List.mem_cons, List.not_mem_nil,
    or_false] at hact
  rcases hact with ⟨m, -, rfl⟩ | rfl | hact | rfl
  · rfl
  · rfl
  · split at hact
    · obtain ⟨m, -, rfl⟩ := List.mem_map.mp hact
      rfl
    · cases hact
  · rfl

theorem IncDone.links {why : Why} {res : Option RefId}
    (hd : IncDone s₁ i a rest p n strong why res s') (ht : s.tasks[i]? = some ⟨a, act :: rest⟩)
    (hk : Keeps s s₁) (htasks : s₁.tasks = s.tasks) : NodeStep L s s' := by
  have hrest {act' : Act} (hact' : act' ∈ rest) : act' ∈ act :: rest := List.mem_cons_of_mem _ hact'
  cases hd with
  | object | command =>
    exact .keep (hk.1 :) (hk.2 :)
      (.setTask ht (by rw [← htasks]; rfl) fun act' hact' _ => hrest hact')
  | failed =>
    refine .keep (hk.1 :) (hk.2 :) (.setTask ht (by rw [← htasks]; rfl) fun act' hact' hl => ?_)
    rcases List.mem_cons.mp hact' with rfl | hact'
    · cases hl
    · rw [releaseActs_isLink act' hact'] at hl
      cases hl
  | again =>
    refine .keep (hk.1 :) (hk.2 :) (.setTask ht (by rw [← htasks]; rfl) fun act' hact' hl => ?_)
    rcases List.mem_cons.mp hact' with rfl | hact'
    · cases hl
    · exact hrest hact'

/-- The temporary reference of an act keeps its node from being freed. -/
theorem Tmp.not_free (h : Tmp s) (ht : s.tasks[i]? = some ⟨a, acts⟩) (hact : .putNode n ∈ acts)
    (hN : s.node n = some N) : 0 < N.tmpRefs := by
  have hle := h n
  have := le_acting (f := Act.tmp n) ht hact
  rw [tmpOf_some hN] at hle
  simp only [Act.tmp, if_true] at this
  omega

theorem ActStep.nodeStep (htab : Tables s) (htmp : Tmp s) (hsh : Shape L s)
    (hstep : ActStep L s i a rest act s') (ht : s.tasks[i]? = some ⟨a, act :: rest⟩) :
    NodeStep L s s' := by
  have hs := hsh.task _ (List.mem_of_getElem? ht)
  have keep {s₁ : RefState} {new : List Act} (hk : Keeps s s₁) (htasks : s₁.tasks = s.tasks)
      (hnew : ∀ act' ∈ new, act'.isLink = true → act' ∈ act :: rest) :
      NodeStep L s (s₁.setTask i a new) :=
    .keep hk.1 hk.2 (.setTask ht (by rw [← htasks]; rfl) hnew)
  have may {s₁ : RefState} {new : List Act} (hk : Keeps s s₁ ∨ Frees s s₁) (htasks : s₁.tasks = s.tasks)
      (hnew : ∀ act' ∈ new, act'.isLink = true → act' ∈ act :: rest) :
      NodeStep L s (s₁.setTask i a new) := by
    rcases hk with hk | ⟨n, N, hN, hi, hn⟩
    · exact keep hk htasks hnew
    · exact .free hN hi hn (.setTask ht (by rw [← htasks]; rfl) hnew)
  have hrest {act' : Act} (hact' : act' ∈ rest) : act' ∈ act :: rest := List.mem_cons_of_mem _ hact'
  have one {act₁ : Act} (h₁ : act₁.isLink = false) :
      ∀ act' ∈ act₁ :: rest, act'.isLink = true → act' ∈ act :: rest := by
    intro act' hact' hl
    rcases List.mem_cons.mp hact' with rfl | hact'
    · rw [h₁] at hl
      cases hl
    · exact hrest hact'
  have two {act₁ act₂ : Act} (h₁ : act₁.isLink = false) (h₂ : act₂.isLink = false) :
      ∀ act' ∈ act₁ :: act₂ :: rest, act'.isLink = true → act' ∈ act :: rest := by
    intro act' hact' hl
    rcases List.mem_cons.mp hact' with rfl | hact'
    · rw [h₁] at hl
      cases hl
    · exact one h₂ act' hact' hl
  have fails {b : BufId} {B : Buffer} (new : List Act) (hnew : ∀ act' ∈ new, act'.isLink = false) :
      ∀ act' ∈ new ++ releaseActs b B true, act'.isLink = true → act' ∈ act :: rest := by
    intro act' hact' hl
    rcases List.mem_append.mp hact' with hact' | hact'
    · rw [hnew act' hact'] at hl
      cases hl
    · rw [releaseActs_isLink act' hact'] at hl
      cases hl
  have env {s₁ : RefState} (h : s₁.env = s.env) : s₁.tasks = s.tasks := env_tasks h
  cases hstep with
  | checksFail => exact keep ⟨rfl, rfl⟩ rfl (two rfl rfl)
  | checks => exact .keep rfl rfl (.setTask ht rfl (one rfl))
  | newNodeFail => exact .keep rfl rfl (.setTask ht rfl (fails [] (by simp)))
  | translateBinderFail | translateHandleFail =>
    exact .keep rfl rfl (.setTask ht rfl (fails [_] (by simp [Act.isLink])))
  | @newNode x b o n s₁ hn =>
    obtain ⟨y, c, target, pre, rfl, hp, rfl⟩ := hs.inBuild rfl
    cases hp
    have hlive := hsh.live x _ (List.mem_of_getElem? ht) (by simp)
    have htasks := env (initNode_env hn)
    have hlinks : SameLinks s (s₁.setTask i (.thread x)
        (.translateBinder x b n o :: .putNode n :: ([] ++ [.build x b target]))) :=
      .setTask ht (by rw [← htasks]; rfl) (two rfl rfl)
    rcases initNode_cases hn with ⟨N, -, hN, rfl⟩ | ⟨hnone, hnew, rfl⟩
    · exact .keep (ident_of_node rfl hN rfl) rfl hlinks
    · have hid : (s.setNode n (Node.fresh (L.procOf x) o.binder o.cookie)).ident =
          Function.update s.ident n (some (o.binder, o.cookie, some (L.procOf x))) := ident_setNode
      exact .new hnew hnone hlive hid rfl fun t' ht' act' hact' hl =>
        .inl (hlinks t' ht' act' hact' hl)
  | translateBinder | translateHandle | incAlloc | releaseSkip => exact keep ⟨rfl, rfl⟩ rfl (one rfl)
  | @translateOwn _ _ n strong N _ hN _ _ =>
    refine .keep ?_ rfl (.setTask ht rfl fun _ hact' _ => hrest hact')
    have hk : (N.inc strong false none (s.isMgr L n N)).2.ident = N.ident := by
      rw [Node.inc_local]
      cases strong <;> rfl
    exact ident_of_node rfl hN hk
  | incFound _ _ _ hinc hdone => exact hdone.links ht (incRef_links hinc) (env (incRef_env hinc))
  | incNoMem _ _ hdone => exact hdone.links ht ⟨rfl, rfl⟩ rfl
  | incNew hinc hdone => exact hdone.links ht (incRef_links hinc) (env (incRef_env hinc))
  | addRef _ _ hadd => exact keep (addRef_links hadd) (env (addRef_env hadd)) (one rfl)
  | decNode hd => exact may (decNode_links hd) (env (decNode_env hd)) fun _ hact' _ => hrest hact'
  | putNode hp => exact may (putNode_links hp) (env (putNode_env hp)) fun _ hact' _ => hrest hact'
  | releaseEnd | updateNone | doneBad | dropEnd | clearNone | clearMgr | setDead | releaseNodesEnd
  | releaseRefsEnd => exact .keep rfl rfl (.setTask ht rfl fun _ hact' _ => hrest hact')
  | releaseBinder _ _ hN =>
    refine .keep (ident_of_node rfl hN rfl) rfl (.setTask ht rfl fun act' hact' hl => ?_)
    rcases List.mem_cons.mp hact' with rfl | hact'
    · cases hl
    · exact two rfl rfl act' hact' hl
  | @releaseHandle _ _ _ _ last _ _ _ _ hd =>
    refine keep (decRef_links htab hd) (env (decRef_env hd)) ?_
    cases last with
    | false => exact one rfl
    | true => exact two rfl rfl
  | cleanupRef hc =>
    exact may (cleanupRef_links htab hc) (env (cleanupRef_env hc)) fun _ hact' _ => hrest hact'
  | freeBuf => exact .keep rfl rfl (.setTask ht rfl fun _ hact' _ => hrest hact')
  | updateInc _ _ hinc =>
    exact keep (incRef_links hinc) (env (incRef_env hinc)) fun _ hact' _ => hrest hact'
  | @updateDec _ _ _ _ last _ _ _ hd =>
    refine keep (decRef_links htab hd) (env (decRef_env hd)) ?_
    cases last with
    | false => exact fun _ hact' _ => hrest hact'
    | true => exact one rfl
  | @done n strong N free s₁ hN _ hd =>
    obtain ⟨x, rfl, rfl⟩ := hs.ofDone
    obtain ⟨M, ns, hM, hfree, rfl, hns⟩ := decNilocked_cases hd
    obtain rfl : M = N.clearPending strong := by simpa [RefState.setNode] using hM.symm
    -- the command's own temporary reference keeps the node
    have hpos := htmp.not_free ht (n := n) (by simp) hN
    have hf : free = false := by
      by_contra hf
      rw [Bool.not_eq_false] at hf
      have := (Node.unused_iff.mp (Node.dec_free (hfree.trans hf)).1).2.2.2
      rw [Node.drop_tmpRefs] at this
      have hclear : (N.clearPending strong).tmpRefs = N.tmpRefs := by cases strong <;> rfl
      omega
    rw [hns hf]
    have hk : ((N.clearPending strong).dec strong false).2.ident = N.ident := by
      rw [Node.dec_ident]
      cases strong <;> rfl
    refine .keep ?_ rfl (.setTask ht rfl fun _ hact' _ => hrest hact')
    refine ident_of_node ?_ hN hk
    exact Function.update_idem ..
  | becomeMgr hN => exact .keep (ident_of_node rfl hN rfl) rfl (.setTask ht rfl fun _ hact' _ => hrest hact')
  | dropWork _ hN => exact .keep (ident_of_node rfl hN rfl) rfl (.setTask ht rfl fun _ hact' _ => hact')
  | @releaseNodes p n ns N hns hN =>
    obtain ⟨q, rfl, hr⟩ := hs.inRelease rfl
    have hq : q = p := by
      cases hr
      rfl
    subst hq
    refine .unlink (hsh.worker q _ (List.mem_of_getElem? ht)) hns (ident_of_node rfl hN rfl) rfl
      ⟨i, _, List.getElem?_set_self (List.getElem?_eq_some_iff.mp ht).1⟩ ?_
    intro t' ht' act' hact' hl
    rcases List.mem_or_eq_of_mem_set ht' with ht' | rfl
    · exact .inl ⟨t', ht', rfl, hact'⟩
    · rcases List.mem_cons.mp hact' with rfl | hact'
      · exact .inr ⟨rfl, rfl⟩
      · exact .inl ⟨_, List.mem_of_getElem? ht, rfl, hact'⟩
  | nodeReleaseFree => exact .gone ht (ident_freeNode (q := none) :) rfl rfl
  | nodeRelease hN => exact .reset ht hN (ident_setNode (s := s) :) rfl rfl
  | releaseRefs _ _ hc =>
    exact may (cleanupRef_links htab hc) (env (cleanupRef_env hc)) (one rfl)

theorem exec_nodeStep (htab : Tables s) (htmp : Tmp s) (hsh : Shape L s)
    (he : s.exec L op = some s') : NodeStep L s s' := by
  have keepSet {s₁ : RefState} {i : Nat} {a : Actor} {x : ThreadId} {b : BufId}
      {target : Option NodeId} {rest new : List Act} (ht : s.tasks[i]? = some ⟨a, .build x b target :: rest⟩)
      (hi : s₁.ident = s.ident) (hn : s₁.nodes = s.nodes) (htasks : s₁.tasks = s.tasks)
      (hnew : ∀ act ∈ new, act.isLink = true → act ∈ rest) : NodeStep L s (s₁.setTask i a new) :=
    .keep hi hn (.setTask ht (by rw [← htasks]; rfl) fun act hact hl =>
      List.mem_cons_of_mem _ (hnew act hact hl))
  have keepAdd {s₁ : RefState} {a : Actor} {new : List Act} (hi : s₁.ident = s.ident)
      (hn : s₁.nodes = s.nodes) (htasks : s₁.tasks = s.tasks)
      (hnew : ∀ act ∈ new, act.isLink = false) : NodeStep L s (s₁.addTask a new) :=
    .keep hi hn (.addTask (by rw [← htasks]; rfl) hnew)
  have take {n : NodeId} {N : Node} (k : Int) (hN : s.node n = some N) :
      (s.setNode n { N with tmpRefs := k }).ident = s.ident := ident_of_node rfl hN rfl
  cases exec_cases he with
  | transaction _ _ hN =>
    refine keepAdd (ident_of_node rfl hN rfl) rfl rfl ?_
    simp [Act.isLink]
  | reply | update | updateMgr | threadExit | close =>
    refine .keep rfl rfl (.addTask rfl ?_)
    simp [Act.isLink]
  | binderFound ht _ _ hN =>
    refine keepSet ht (take _ hN) rfl rfl ?_
    simp +contextual [Act.isLink]
  | binderNew ht =>
    refine keepSet ht rfl rfl rfl ?_
    simp +contextual [Act.isLink]
  | handle ht _ _ _ _ hN =>
    refine keepSet ht (take _ hN) rfl rfl ?_
    simp +contextual [Act.isLink]
  | fails _ ht =>
    refine .keep rfl rfl (.setTask ht rfl fun act hact hl => ?_)
    rw [releaseActs_isLink act hact] at hl
    cases hl
  | @send i a x b target rest B ht =>
    refine .keep rfl rfl (.setTask ht rfl fun act hact hl => ?_)
    rcases List.mem_append.mp hact with hact | hact
    · obtain ⟨m, -, rfl⟩ := List.mem_map.mp hact
      cases hl
    · exact List.mem_cons_of_mem _ hact
  | freeBuffer => exact .keep rfl rfl (.addTask rfl releaseActs_isLink)
  | doneCommand _ _ hN | nodeInfo _ _ _ _ hN | showNode _ hN =>
    refine keepAdd (take _ hN) rfl rfl ?_
    simp [Act.isLink]
  | tell _ hN =>
    refine .keep (ident_of_node rfl hN rfl) rfl fun t ht act hact _ => ⟨t, ht, rfl, hact⟩
  | tellFree _ hN _ hp =>
    refine .free hN ident_freeNode ?_ fun t ht act hact _ => ⟨t, ht, rfl, hact⟩
    rw [hp]
    rfl
  | @setCtxMgr x ptr cookie n s₁ hidle _ _ hn =>
    have hlive : s.closed (L.procOf x) = false := by
      simp only [RefState.idle, Bool.and_eq_true, Bool.not_eq_true'] at hidle
      exact hidle.1.1
    have hlinks : ∀ t' ∈ (s₁.addTask (.thread x) [.becomeMgr (L.ctxOf (L.procOf x)) n, .putNode n]).tasks,
        ∀ act ∈ t'.acts, act.isLink = true → (∃ t ∈ s.tasks, t.actor = t'.actor ∧ act ∈ t.acts) ∨
          (t'.actor = .thread x ∧ act = .becomeMgr (L.ctxOf (L.procOf x)) n) := by
      intro t' ht' act hact hl
      rcases List.mem_append.mp ht' with ht' | ht'
      · rw [env_tasks (initNode_env hn)] at ht'
        exact .inl ⟨t', ht', rfl, hact⟩
      · rw [List.mem_singleton] at ht'
        subst ht'
        rcases List.mem_cons.mp hact with rfl | hact
        · exact .inr ⟨rfl, rfl⟩
        · rw [List.mem_singleton] at hact
          subst hact
          cases hl
    rcases initNode_cases hn with ⟨N, hget, hN, rfl⟩ | ⟨hnone, hnew, rfl⟩
    · exact .find hget (take _ hN) rfl hlinks
    · have hid : (s.setNode n (Node.fresh (L.procOf x) ptr cookie)).ident =
          Function.update s.ident n (some (ptr, cookie, some (L.procOf x))) := ident_setNode
      exact .new hnew hnone hlive hid rfl hlinks
  | run ht hact => exact hact.nodeStep htab htmp hsh ht

/-! ## The invariant -/

/-- The tree of a process has its nodes, with different pointers; only a node that is about to be
released is off it. -/
structure Links (s : RefState) : Prop where
  own : ∀ {p n}, n ∈ s.nodes p → ∃ ptr cookie, s.ident n = some (ptr, cookie, some p)
  linked : ∀ {p n ptr cookie}, s.ident n = some (ptr, cookie, some p) → n ∈ s.nodes p ∨ Leaving s p n
  nodup : ∀ p, (s.nodes p).Nodup
  ptr : ∀ {p n m}, n ∈ s.nodes p → m ∈ s.nodes p → s.ptrOf n = s.ptrOf m → n = m
  leaving : ∀ {p n}, Leaving s p n →
    n ∉ s.nodes p ∧ ∃ ptr cookie, s.ident n = some (ptr, cookie, some p)

theorem ident_some {ptr cookie : Nat} {q : Option ProcId} : s.ident n = some (ptr, cookie, q) ↔
    ∃ N, s.node n = some N ∧ N.ptr = ptr ∧ N.cookie = cookie ∧ N.proc = q := by
  simp [RefState.ident, Node.ident, Option.map_eq_some_iff]

theorem ident_none : s.ident n = none ↔ s.node n = none := by
  simp [RefState.ident]

theorem ptrOf_eq (s : RefState) (n : NodeId) : s.ptrOf n = ((s.ident n).map (·.1)).getD 0 := by
  simp only [RefState.ptrOf, RefState.ident, Option.map_map]
  rfl

theorem mem_insertPtr {ptr : Nat} {ns : List NodeId} : m ∈ s.insertPtr n ptr ns ↔ m = n ∨ m ∈ ns := by
  induction ns with
  | nil => simp [RefState.insertPtr]
  | cons k ns ih =>
    simp only [RefState.insertPtr]
    split
    · simp
    · simp only [List.mem_cons, ih]
      exact or_left_comm

theorem nodup_insertPtr {ptr : Nat} {ns : List NodeId} (hn : n ∉ ns) (hnd : ns.Nodup) :
    (s.insertPtr n ptr ns).Nodup := by
  induction ns with
  | nil => simp [RefState.insertPtr]
  | cons k ns ih =>
    rw [List.mem_cons, not_or] at hn
    rw [List.nodup_cons] at hnd
    simp only [RefState.insertPtr]
    split
    · exact List.nodup_cons.mpr ⟨by simp [hn], List.nodup_cons.mpr hnd⟩
    · refine List.nodup_cons.mpr ⟨?_, ih hn.2 hnd.2⟩
      rw [mem_insertPtr, not_or]
      exact ⟨Ne.symm hn.1, hnd.1⟩

theorem mem_freeNode {q : Option ProcId} (h : m ∈ (s.freeNode n q).nodes p) : m ∈ s.nodes p := by
  simp only [RefState.freeNode] at h
  split at h
  · rename_i p'
    by_cases hp : p = p'
    · subst hp
      rw [Function.update_self] at h
      exact List.mem_of_mem_erase h
    · rwa [Function.update_of_ne hp] at h
  · exact h

/-- No other node leaves the tree. -/
theorem mem_freeNode_of_ne {q : Option ProcId} (h : m ∈ s.nodes p) (hne : m ≠ n) :
    m ∈ (s.freeNode n q).nodes p := by
  simp only [RefState.freeNode]
  split
  · rename_i p'
    by_cases hp : p = p'
    · subst hp
      rw [Function.update_self]
      exact (List.mem_erase_of_ne hne).mpr h
    · rwa [Function.update_of_ne hp]
  · exact h

/-- A worker releases one node after the other. -/
theorem Shaped.nodeRelease {t : Task} (h : Shaped L t) (hm : .nodeRelease p n ∈ t.acts) :
    ∃ rest, t = ⟨.worker p, .nodeRelease p n :: rest⟩ ∧ ∀ q k, .nodeRelease q k ∉ rest := by
  obtain ⟨a, acts⟩ := t
  cases h with
  | ops _ hall => exact absurd (hall _ hm) (by simp [Act.isOp])
  | checks _ hacts | done _ hacts | becomes _ hacts =>
    cases hacts
    simp at hm
  | builds _ hp hacts => cases hp <;> cases hacts <;> simp at hm
  | releases ha hr =>
    cases ha
    cases hr with
    | node k =>
      simp only [List.mem_cons, Act.nodeRelease.injEq, reduceCtorEq, List.not_mem_nil, or_self,
        or_false] at hm
      obtain ⟨rfl, rfl⟩ := hm
      exact ⟨_, rfl, by simp⟩
    | start | setDead | threads | nodes | putNode | refs | work | ended => simp at hm

theorem Shape.leaving (h : Shape L s) {t : Task} (ht : t ∈ s.tasks) (hm : .nodeRelease p n ∈ t.acts) :
    Leaving s p n := by
  obtain ⟨rest, rfl, -⟩ := (h.task t ht).nodeRelease hm
  obtain ⟨i, hi⟩ := List.mem_iff_getElem?.mp ht
  exact ⟨i, rest, hi⟩

theorem SameLinks.leaving (h : SameLinks s s') (hs : Shape L s) (hl : Leaving s' p n) :
    Leaving s p n := by
  obtain ⟨i, rest, hi⟩ := hl
  obtain ⟨t, ht, -, hm⟩ := h _ (List.mem_of_getElem? hi) _ List.mem_cons_self rfl
  exact hs.leaving ht hm

/-- A node is about to be released until it is. -/
theorem Leaving.exec (h : Leaving s p n) (he : s.exec L op = some s') :
    Leaving s' p n ∨ ∀ ptr cookie, s'.ident n ≠ some (ptr, cookie, some p) := by
  obtain ⟨i, rest, hi⟩ := h
  have hlt := (List.getElem?_eq_some_iff.mp hi).1
  rcases exec_tasks he with ⟨ts, hts⟩ | ⟨j, a, act, rest', acts, hj, hts, hrun⟩
  · exact .inl ⟨i, rest, by rw [hts, List.getElem?_append_left hlt, hi]⟩
  · by_cases hij : j = i
    · subst hij
      rw [hi] at hj
      cases hj
      rcases hrun with ⟨k, ok, b, rest'', rfl, hk⟩ | ⟨x, b, target, hb⟩
      · refine .inr fun ptr cookie => ?_
        obtain ⟨a', act', rest₃, ht, hact⟩ : ∃ a' act' rest₃,
            s.tasks[k]? = some ⟨a', act' :: rest₃⟩ ∧ ActStep L s k a' rest₃ act' s' := by
          cases exec_cases he with
          | run ht hact => exact ⟨_, _, _, ht, hact⟩
          | fails hop => rcases hop with hop | hop | ⟨_, hop⟩ <;> cases hop
        rw [hk] at ht
        cases ht
        cases hact with
        | nodeReleaseFree => simp [RefState.ident, RefState.freeNode, RefState.setTask]
        | nodeRelease => simp [RefState.ident, RefState.setNode, RefState.setTask, Node.ident]
        | incFound hact => rcases hact with hact | hact <;> cases hact
        | dropWork hact | dropEnd hact => rcases hact with ⟨_, hact⟩ | ⟨_, hact⟩ <;> cases hact
      · cases hb
    · exact .inl ⟨i, rest, by rw [hts, List.getElem?_set_ne hij, hi]⟩

/-- Two workers do not release the same node. -/
theorem Links.oneLeaving (h : Links s) (hs : Shape L s) {rest : List Act} {q : ProcId}
    (hi : s.tasks[i]? = some ⟨.worker p, .nodeRelease p n :: rest⟩)
    (ht : s'.tasks = s.tasks.set i ⟨.worker p, acts⟩)
    (hacts : ∀ (q : ProcId) (k : NodeId), .nodeRelease q k ∉ acts) (hl : Leaving s' q m) :
    Leaving s q m ∧ m ≠ n := by
  obtain ⟨j, rest', hj⟩ := hl
  rw [ht] at hj
  by_cases hij : i = j
  · subst hij
    rw [List.getElem?_set_self (List.getElem?_eq_some_iff.mp hi).1] at hj
    cases hj
    exact absurd List.mem_cons_self (hacts _ m)
  · rw [List.getElem?_set_ne hij] at hj
    refine ⟨⟨j, rest', hj⟩, ?_⟩
    rintro rfl
    obtain ⟨-, ptr, cookie, hq⟩ := h.leaving ⟨j, rest', hj⟩
    obtain ⟨-, ptr', cookie', hp⟩ := h.leaving ⟨i, rest, hi⟩
    rw [hp] at hq
    simp only [Option.some.injEq, Prod.mk.injEq] at hq
    obtain ⟨-, -, rfl⟩ := hq
    exact hij (hs.oneWorker _ _ _ _ _ hi hj)

/-- The nodes that are about to be released after a step were so before; and those that were so are,
unless they have been released. -/
structure SameLeaving (s s' : RefState) : Prop where
  old : ∀ {p n}, Leaving s' p n → Leaving s p n
  stay : ∀ {p n}, Leaving s p n → Leaving s' p n ∨ ∀ ptr cookie, s'.ident n ≠ some (ptr, cookie, some p)

theorem SameLeaving.of_tasks (h : s'.tasks = s.tasks) : SameLeaving s s' where
  old {p n} hl := by rwa [Leaving, ← h]
  stay {p n} hl := .inl (by rwa [Leaving, h])

namespace Links

/-- A node that keeps its process is where it was. -/
theorem stays (h : Links s) (hl : SameLeaving s s') {ptr cookie : Nat}
    (hi : s.ident n = some (ptr, cookie, some p)) (hi' : s'.ident n = some (ptr, cookie, some p))
    (hn : n ∈ s.nodes p → n ∈ s'.nodes p) : n ∈ s'.nodes p ∨ Leaving s' p n := by
  rcases h.linked hi with hm | hm
  · exact .inl (hn hm)
  · exact .inr ((hl.stay hm).resolve_right fun hne => hne _ _ hi')

theorem keep (h : Links s) (hi : s'.ident = s.ident) (hn : s'.nodes = s.nodes)
    (hl : SameLeaving s s') : Links s' := by
  have hptr (m : NodeId) : s'.ptrOf m = s.ptrOf m := by rw [ptrOf_eq, ptrOf_eq, hi]
  refine ⟨?_, fun {q m ptr cookie} hm => ?_, fun q => by rw [hn]; exact h.nodup q, ?_, ?_⟩
  · rw [hi, hn]
    exact h.own
  · exact h.stays hl (by rw [← hi]; exact hm) hm (by rw [hn]; exact fun h => h)
  · intro q k m hk hm hkm
    rw [hn] at hk hm
    exact h.ptr hk hm (by rw [← hptr, ← hptr, hkm])
  · intro q m hm
    rw [hi, hn]
    exact h.leaving (hl.old hm)

/-- A node is freed that no worker is about to release. -/
theorem free (h : Links s) (hN : s.node n = some N) (hi : s'.ident = Function.update s.ident n none)
    (hn : s'.nodes = (s.freeNode n N.proc).nodes) (hl : SameLeaving s s')
    (hleft : ∀ p, ¬ Leaving s' p n) : Links s' := by
  have hsub {q : ProcId} {m : NodeId} (hm : m ∈ s'.nodes q) : m ∈ s.nodes q ∧ m ≠ n := by
    rw [hn] at hm
    refine ⟨mem_freeNode hm, ?_⟩
    rintro rfl
    obtain ⟨ptr, cookie, hid⟩ := h.own (mem_freeNode hm)
    obtain ⟨M, hM, -, -, hp⟩ := ident_some.mp hid
    rw [hN] at hM
    cases hM
    simp only [RefState.freeNode, hp, Function.update_self] at hm
    exact (h.nodup q).not_mem_erase hm
  have hptr {m : NodeId} (hm : m ≠ n) : s'.ptrOf m = s.ptrOf m := by
    rw [ptrOf_eq, ptrOf_eq, hi, Function.update_of_ne hm]
  refine ⟨fun {q m} hm => ?_, fun {q m ptr cookie} hm => ?_, fun q => ?_, fun {q k m} hk hm hkm => ?_,
    fun {q m} hm => ?_⟩
  · obtain ⟨hm, hne⟩ := hsub hm
    rw [hi, Function.update_of_ne hne]
    exact h.own hm
  · have hne : m ≠ n := by
      rintro rfl
      rw [hi, Function.update_self] at hm
      cases hm
    refine h.stays hl (by rwa [hi, Function.update_of_ne hne] at hm) hm fun hmem => ?_
    rw [hn]
    exact mem_freeNode_of_ne hmem hne
  · rw [hn]
    cases hp : N.proc with
    | none => exact h.nodup q
    | some p' =>
      show (Function.update s.nodes p' ((s.nodes p').erase n) q).Nodup
      by_cases hq : q = p'
      · subst hq
        rw [Function.update_self]
        exact (h.nodup q).erase n
      · rw [Function.update_of_ne hq]
        exact h.nodup q
  · obtain ⟨hk, hkn⟩ := hsub hk
    obtain ⟨hm, hmn⟩ := hsub hm
    exact h.ptr hk hm (by rw [← hptr hkn, ← hptr hmn, hkm])
  · have hne : m ≠ n := by
      rintro rfl
      exact hleft q hm
    obtain ⟨hnot, hid⟩ := h.leaving (hl.old hm)
    rw [hi, Function.update_of_ne hne]
    exact ⟨fun hmem => hnot (hsub hmem).1, hid⟩

/-- The lookup of `ptr` finds nothing: no node of the tree has it. -/
theorem ptrOf_ne (h : Links s) {ptr : Nat} (hnone : s.getNode p ptr = none) (hm : m ∈ s.nodes p) :
    s.ptrOf m ≠ ptr := by
  intro hp
  have hfind := List.find?_eq_none.mp hnone m hm
  obtain ⟨_, _, hid⟩ := h.own hm
  obtain ⟨M, hM, -⟩ := ident_some.mp hid
  simp only [RefState.ptrOf, hM, Option.map_some, Option.getD_some] at hp
  simp [hM, hp] at hfind

/-- A new node of the process `p`. -/
theorem new (h : Links s) {ptr cookie : Nat} (hfresh : s.ident n = none)
    (hnone : s.getNode p ptr = none)
    (hi : s'.ident = Function.update s.ident n (some (ptr, cookie, some p)))
    (hn : s'.nodes = Function.update s.nodes p (s.insertPtr n ptr (s.nodes p)))
    (hl : SameLeaving s s') : Links s' := by
  have hne {q : ProcId} {m : NodeId} (hm : m ∈ s.nodes q) : m ≠ n := by
    rintro rfl
    obtain ⟨_, _, hid⟩ := h.own hm
    rw [hfresh] at hid
    cases hid
  have hmem {q : ProcId} {m : NodeId} (hm : m ∈ s'.nodes q) : m ∈ s.nodes q ∨ (m = n ∧ q = p) := by
    rw [hn] at hm
    by_cases hq : q = p
    · subst hq
      rw [Function.update_self, mem_insertPtr] at hm
      exact hm.symm.imp_right fun h => ⟨h, rfl⟩
    · rw [Function.update_of_ne hq] at hm
      exact .inl hm
  have hkeep {q : ProcId} {m : NodeId} (hm : m ∈ s.nodes q) : m ∈ s'.nodes q := by
    rw [hn]
    by_cases hq : q = p
    · subst hq
      rw [Function.update_self, mem_insertPtr]
      exact .inr hm
    · rwa [Function.update_of_ne hq]
  have hptr {q : ProcId} {m : NodeId} (hm : m ∈ s.nodes q) : s'.ptrOf m = s.ptrOf m := by
    rw [ptrOf_eq, ptrOf_eq, hi, Function.update_of_ne (hne hm)]
  have hptrn : s'.ptrOf n = ptr := by rw [ptrOf_eq, hi, Function.update_self]; rfl
  have hother {m : NodeId} (hm : m ∈ s.nodes p) : s.ptrOf m ≠ ptr := h.ptrOf_ne hnone hm
  refine ⟨fun {q m} hm => ?_, fun {q m ptr' cookie'} hm => ?_, fun q => ?_, fun {q k m} hk hm hkm => ?_,
    fun {q m} hm => ?_⟩
  · rcases hmem hm with hm | ⟨rfl, rfl⟩
    · rw [hi, Function.update_of_ne (hne hm)]
      exact h.own hm
    · exact ⟨ptr, cookie, by rw [hi, Function.update_self]⟩
  · by_cases hmn : m = n
    · subst hmn
      rw [hi, Function.update_self] at hm
      cases hm
      rw [hn, Function.update_self, mem_insertPtr]
      exact .inl (.inl rfl)
    · exact h.stays hl (by rwa [hi, Function.update_of_ne hmn] at hm) hm hkeep
  · rw [hn]
    by_cases hq : q = p
    · subst hq
      rw [Function.update_self]
      exact nodup_insertPtr (fun hmem => hne hmem rfl) (h.nodup _)
    · rw [Function.update_of_ne hq]
      exact h.nodup q
  · rcases hmem hk with hk | ⟨rfl, rfl⟩
    · rcases hmem hm with hm | ⟨rfl, rfl⟩
      · exact h.ptr hk hm (by rw [← hptr hk, ← hptr hm, hkm])
      · rw [hptrn, hptr hk] at hkm
        exact absurd hkm (hother hk)
    · rcases hmem hm with hm | ⟨rfl, -⟩
      · rw [hptrn, hptr hm] at hkm
        exact absurd hkm.symm (hother hm)
      · rfl
  · obtain ⟨hnot, ptr', cookie', hid⟩ := h.leaving (hl.old hm)
    have hmn : m ≠ n := by
      rintro rfl
      rw [hfresh] at hid
      cases hid
    refine ⟨fun hmem' => ?_, ptr', cookie', by rw [hi, Function.update_of_ne hmn, hid]⟩
    rcases hmem hmem' with hmem' | ⟨rfl, -⟩
    · exact hnot hmem'
    · exact hmn rfl

/-- The worker takes the first node off the tree. -/
theorem unlink (h : Links s) {ns : List NodeId} (hns : s.nodes p = n :: ns) (hi : s'.ident = s.ident)
    (hn : s'.nodes = Function.update s.nodes p ns) (hleave : Leaving s' p n)
    (hold : ∀ {q m}, Leaving s' q m → Leaving s q m ∨ (q = p ∧ m = n))
    (hstay : ∀ {q m}, Leaving s q m →
      Leaving s' q m ∨ ∀ ptr cookie, s'.ident m ≠ some (ptr, cookie, some q)) : Links s' := by
  have hptr (m : NodeId) : s'.ptrOf m = s.ptrOf m := by rw [ptrOf_eq, ptrOf_eq, hi]
  have hsub {q : ProcId} {m : NodeId} (hm : m ∈ s'.nodes q) : m ∈ s.nodes q := by
    rw [hn] at hm
    by_cases hp : q = p
    · subst hp
      rw [Function.update_self] at hm
      rw [hns]
      exact List.mem_cons_of_mem _ hm
    · rwa [Function.update_of_ne hp] at hm
  have hnd := h.nodup p
  rw [hns, List.nodup_cons] at hnd
  refine ⟨fun {q m} hm => ?_, fun {q m ptr cookie} hm => ?_, fun q => ?_, fun {q k m} hk hm hkm => ?_,
    fun {q m} hm => ?_⟩
  · rw [hi]
    exact h.own (hsub hm)
  · by_cases hmn : m = n ∧ q = p
    · obtain ⟨rfl, rfl⟩ := hmn
      exact .inr hleave
    · rcases h.linked (by rw [← hi]; exact hm) with hmem | hmem
      · refine .inl ?_
        rw [hn]
        by_cases hp : q = p
        · subst hp
          rw [Function.update_self]
          rw [hns] at hmem
          exact (List.mem_cons.mp hmem).resolve_left fun hm => hmn ⟨hm, rfl⟩
        · rwa [Function.update_of_ne hp]
      · exact .inr ((hstay hmem).resolve_right fun hne => hne _ _ hm)
  · rw [hn]
    by_cases hp : q = p
    · subst hp
      rw [Function.update_self]
      exact hnd.2
    · rw [Function.update_of_ne hp]
      exact h.nodup q
  · exact h.ptr (hsub hk) (hsub hm) (by rw [← hptr, ← hptr, hkm])
  · rw [hi]
    rcases hold hm with hm | ⟨rfl, rfl⟩
    · obtain ⟨hnot, hid⟩ := h.leaving hm
      exact ⟨fun hmem => hnot (hsub hmem), hid⟩
    · refine ⟨fun hmem => ?_, h.own (by rw [hns]; exact List.mem_cons_self)⟩
      rw [hn, Function.update_self] at hmem
      exact hnd.1 hmem

/-- The worker is done with the node `n`. -/
theorem removed (h : Links s) (hp : Leaving s p n) (hn : s'.nodes = s.nodes)
    (hi : ∀ m, m ≠ n → s'.ident m = s.ident m)
    (hnone : ∀ ptr cookie q, s'.ident n ≠ some (ptr, cookie, some q))
    (hold : ∀ {q m}, Leaving s' q m → Leaving s q m ∧ m ≠ n)
    (hstay : ∀ {q m}, Leaving s q m →
      Leaving s' q m ∨ ∀ ptr cookie, s'.ident m ≠ some (ptr, cookie, some q)) : Links s' := by
  obtain ⟨hnot, ptr₀, cookie₀, hid₀⟩ := h.leaving hp
  have hne {q : ProcId} {m : NodeId} (hm : m ∈ s.nodes q) : m ≠ n := by
    rintro rfl
    obtain ⟨_, _, hid⟩ := h.own hm
    rw [hid₀] at hid
    simp only [Option.some.injEq, Prod.mk.injEq] at hid
    obtain ⟨-, -, rfl⟩ := hid
    exact hnot hm
  have hptr {m : NodeId} (hm : m ≠ n) : s'.ptrOf m = s.ptrOf m := by
    rw [ptrOf_eq, ptrOf_eq, hi m hm]
  refine ⟨fun {q m} hm => ?_, fun {q m ptr cookie} hm => ?_, fun q => by rw [hn]; exact h.nodup q,
    fun {q k m} hk hm hkm => ?_, fun {q m} hm => ?_⟩
  · rw [hn] at hm
    rw [hi m (hne hm)]
    exact h.own hm
  · have hmn : m ≠ n := by
      rintro rfl
      exact hnone _ _ _ hm
    rcases h.linked (by rwa [hi m hmn] at hm) with hmem | hmem
    · rw [hn]
      exact .inl hmem
    · exact .inr ((hstay hmem).resolve_right fun hne => hne _ _ hm)
  · rw [hn] at hk hm
    exact h.ptr hk hm (by rw [← hptr (hne hk), ← hptr (hne hm), hkm])
  · obtain ⟨hm, hmn⟩ := hold hm
    rw [hi m hmn, hn]
    exact h.leaving hm

end Links

/-- The temporary reference of the worker keeps the node. -/
theorem Tmp.not_leaving (h : Tmp s) (hn : s.node n = none) : ¬ Leaving s p n := by
  rintro ⟨j, rest, hj⟩
  have hle := h n
  have := le_acting (f := Act.tmp n) hj List.mem_cons_self
  simp only [RefState.tmpOf, hn, Option.map_none, Option.getD_none] at hle
  simp only [Act.tmp, if_true] at this
  omega

theorem Links.exec (h : Links s) (htab : Tables s) (htmp : Tmp s) (hs : Shape L s) (htmp' : Tmp s')
    (he : s.exec L op = some s') : Links s' := by
  have stay {q : ProcId} {m : NodeId} (hl : Leaving s q m) :
      Leaving s' q m ∨ ∀ ptr cookie, s'.ident m ≠ some (ptr, cookie, some q) := hl.exec he
  -- a step that adds no `nodeRelease`
  have old {y : ThreadId} {c : CtxId} {k : NodeId} (hl : ∀ t' ∈ s'.tasks, ∀ act ∈ t'.acts, act.isLink = true →
      (∃ t ∈ s.tasks, t.actor = t'.actor ∧ act ∈ t.acts) ∨
        (t'.actor = .thread y ∧ act = .becomeMgr c k)) {q : ProcId} {m : NodeId}
      (hm : Leaving s' q m) : Leaving s q m := by
    obtain ⟨j, rest, hj⟩ := hm
    rcases hl _ (List.mem_of_getElem? hj) _ List.mem_cons_self rfl with ⟨t, ht, -, hm⟩ | ⟨-, hact⟩
    · exact hs.leaving ht hm
    · cases hact
  cases exec_nodeStep htab htmp hs he with
  | keep hi hn hl => exact h.keep hi hn ⟨fun hm => hl.leaving hs hm, stay⟩
  | find _ hi hn hl => exact h.keep hi hn ⟨old hl, stay⟩
  | @free n N hN hi hn hl =>
    refine h.free hN hi hn ⟨fun hm => hl.leaving hs hm, stay⟩ fun p => htmp'.not_leaving ?_
    exact ident_none.mp (by rw [hi, Function.update_self])
  | @new x n ptr cookie hnew hnone hlive hi hn hl =>
    have hfresh : s.ident n = none := by rw [hnew, ident_none]; exact htab.fresh
    exact h.new hfresh hnone hi hn ⟨old hl, stay⟩
  | @unlink q n ns hclosed hns hi hn hleave hl =>
    refine h.unlink hns hi hn hleave (fun {p m} hm => ?_) stay
    obtain ⟨j, rest, hj⟩ := hm
    rcases hl _ (List.mem_of_getElem? hj) _ List.mem_cons_self rfl with ⟨t, ht, -, hm⟩ | ⟨-, hact⟩
    · exact .inl (hs.leaving ht hm)
    · cases hact
      exact .inr ⟨rfl, rfl⟩
  | @reset i a q n N rest ht hN hi hn htasks =>
    obtain ⟨rest', hrest, hno⟩ := (hs.task _ (List.mem_of_getElem? ht)).nodeRelease (p := q) (n := n)
      List.mem_cons_self
    cases hrest
    refine h.removed ⟨i, rest, ht⟩ hn (fun m hm => by rw [hi, Function.update_of_ne hm])
      (fun ptr cookie p hid => ?_) (fun hl => h.oneLeaving hs ht htasks (fun p k hk => ?_) hl) stay
    · rw [hi, Function.update_self] at hid
      cases hid
    · rcases List.mem_cons.mp hk with hk | hk
      · cases hk
      · exact hno p k hk
  | @gone i a q n rest ht hi hn htasks =>
    obtain ⟨rest', hrest, hno⟩ := (hs.task _ (List.mem_of_getElem? ht)).nodeRelease (p := q) (n := n)
      List.mem_cons_self
    cases hrest
    refine h.removed ⟨i, rest, ht⟩ hn (fun m hm => by rw [hi, Function.update_of_ne hm])
      (fun ptr cookie p hid => ?_) (fun hl => h.oneLeaving hs ht htasks hno hl) stay
    rw [hi, Function.update_self] at hid
    cases hid

theorem getNode_some {ptr : Nat} (h : s.getNode p ptr = some n) :
    n ∈ s.nodes p ∧ ∃ N, s.node n = some N ∧ N.ptr = ptr := by
  refine ⟨List.mem_of_find?_eq_some h, ?_⟩
  have := List.find?_some h
  simpa [Option.any_eq_true] using this

theorem ptrOf_some (h : s.node n = some N) : s.ptrOf n = N.ptr := by simp [RefState.ptrOf, h]

theorem Links.node (h : Links s) (hn : n ∈ s.nodes p) : ∃ N, s.node n = some N ∧ N.proc = some p := by
  obtain ⟨ptr, cookie, hi⟩ := h.own hn
  obtain ⟨N, hN, -, -, hp⟩ := ident_some.mp hi
  exact ⟨N, hN, hp⟩

/-! ## The numbers of the references -/

/-- A number is a `uint32_t`. -/
def Descs (s : RefState) : Prop := ∀ (r : RefId) (R : Ref), s.ref r = some R → R.desc < 2 ^ 32

theorem freeDesc_lt {ds : List Nat} {d : Nat} (h : d < 2 ^ 32) : freeDesc ds d < 2 ^ 32 := by
  induction ds generalizing d with
  | nil => exact h
  | cons e es ih =>
    simp only [RefState.freeDesc]
    split
    · exact h
    · exact ih (Nat.mod_lt _ (by decide))

theorem nextDesc_lt : s.nextDesc L p n < 2 ^ 32 := by
  refine freeDesc_lt ?_
  split <;> decide

namespace Descs

theorem setRef (h : Descs s) {R R' : Ref} (hR : s.ref r = some R) (hd : R'.desc = R.desc)
    (he : s'.ref = Function.update s.ref r (some R')) : Descs s' := by
  intro q Q hQ
  rw [he, Function.update_apply] at hQ
  split at hQ
  · cases hQ
    rw [hd]
    exact h _ _ hR
  · exact h _ _ hQ

theorem incRef {ok : Bool} (h : Descs s) (hi : s.incRef L r strong list = some (ok, s')) : Descs s' := by
  obtain ⟨R, hR, ⟨-, -, rfl⟩ | ⟨-, -, rfl⟩ | ⟨-, -, N, hN, hok, rfl⟩⟩ := incRef_cases hi
  · exact h
  · exact h.setRef hR Ref.setCount_desc rfl
  · exact h.setRef hR Ref.setCount_desc rfl

theorem decRef {last : Bool} (h : Descs s) (ht : Tables s)
    (hd : s.decRef r strong = some (last, s')) : Descs s' := by
  obtain ⟨R, hR, ⟨-, rfl, -⟩ | ⟨-, -, -, rfl⟩ | ⟨-, -, -, N, hN, rfl⟩⟩ :=
    decRef_cases hd fun R hR => ht.onNode r R hR
  · exact h
  · exact h.setRef hR Ref.setCount_desc rfl
  · exact h.setRef hR Ref.setCount_desc rfl

theorem addRef (h : Descs s) (ha : s.addRef L p n = some s') : Descs s' := by
  obtain ⟨N, qs, -, -, rfl⟩ := addRef_eq ha
  intro q Q hQ
  simp only [RefState.setRef, Function.update_apply] at hQ
  split at hQ
  · cases hQ
    exact nextDesc_lt
  · exact h _ _ hQ

theorem cleanupRef (h : Descs s) (ht : Tables s) (hc : s.cleanupRef r = some s') : Descs s' := by
  have hdrop (R : Ref) (q : RefId) (Q : Ref) (hQ : (s.dropRef r R).ref q = some Q) : Q.desc < 2 ^ 32 := by
    simp only [RefState.dropRef, Function.update_apply] at hQ
    split at hQ
    · cases hQ
    · exact h _ _ hQ
  obtain ⟨R, N, w, -, -, -, ⟨-, rfl⟩ | ⟨-, rfl⟩⟩ := cleanupRef_cases hc fun R hR => ht.onNode r R hR
  · exact hdrop R
  · exact hdrop R

theorem same (h : Descs s) (hs : SameRefs s s') : Descs s' := fun r R hR => h r R (by rwa [← hs.ref])

theorem exec (h : Descs s) (ht : Tables s) (he : s.exec L op = some s') : Descs s' := by
  cases exec_refStep he ht.fresh with
  | same hs => exact h.same hs
  | inc _ _ hi hs => exact (h.incRef hi).same hs
  | dec _ _ hd hs => exact (h.decRef ht hd).same hs
  | add _ _ ha hs => exact (h.addRef ha).same hs
  | remove _ _ hc hs => exact (h.cleanupRef ht hc).same hs

end Descs

/-! ## Every reachable state -/

/-- What every reachable state has. -/
structure Good (L : Layout) (s : RefState) : Prop where
  tables : Tables s
  covered : Excess (0 ≤ ·) s
  shape : Shape L s
  builds : Builds s
  tmp : Tmp s
  links : Links s
  descs : Descs s

theorem links_start : Links start := by
  constructor <;> simp [start, RefState.ident, Leaving]

theorem Good.exec (h : Good L s) (he : s.exec L op = some s') : Good L s' := by
  have htmp := h.tmp.exec h.tables h.builds h.shape he
  exact ⟨h.tables.exec he, h.covered.nonneg_exec h.tables he, h.shape.exec he, h.builds.exec h.shape he, htmp,
    h.links.exec h.tables h.tmp h.shape htmp he, h.descs.exec h.tables he⟩

theorem good_start : Good L start :=
  ⟨tables_start, .start, shape_start, builds_start, tmp_start, links_start, fun _ _ h => nomatch h⟩

theorem good_of_reach (h : (refSys L).Reach s) : Good L s :=
  h.inv (by rintro _ rfl; exact good_start) fun _ _ _ hg he => hg.exec he

end Redroid.Binder.Refs
