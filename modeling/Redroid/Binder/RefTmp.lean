import Redroid.Binder.RefLedger

/-!
# The temporary references of a node

`tmp_refs` of a node is at least the number of temporary references that the operations in progress
have to drop.

* `Act.tmp`: the temporary references that an act has to drop. `Tmp`: the invariant.
-/

namespace Redroid.Binder.Refs

open RefState

/-- The temporary references on `n` that the act drops. -/
def Act.tmp (n : NodeId) : Act → Nat
  | .checks _ m _ | .build _ _ (some m) | .putNode m | .nodeRelease _ m => if m = n then 1 else 0
  | _ => 0

/-- `tmp_refs` of the node, 0 if there is none. -/
def RefState.tmpOf (s : RefState) (n : NodeId) : Int := ((s.node n).map Node.tmpRefs).getD 0

/-- The temporary references are there. -/
def Tmp (s : RefState) : Prop := ∀ n, (s.acting (Act.tmp n) : Int) ≤ s.tmpOf n

variable {L : Layout} {s s' s₁ : RefState} {m n : NodeId} {N N' : Node} {p : ProcId} {b : BufId}
  {B : Buffer} {x : ThreadId} {r : RefId} {i : Nat} {a : Actor} {act : Act} {rest acts : List Act}
  {op : RefOp} {strong internal : Bool} {list : Option ThreadId}

/-! ## What the operations do to `tmp_refs` -/

theorem tmpOf_some (h : s.node n = some N) : s.tmpOf n = N.tmpRefs := by
  simp [RefState.tmpOf, h]

theorem tmpOf_setNode : (s.setNode m N).tmpOf n = if n = m then N.tmpRefs else s.tmpOf n := by
  simp only [RefState.tmpOf, RefState.setNode, Function.update_apply]
  split <;> rfl

theorem tmpOf_freeNode {q : Option ProcId} :
    (s.freeNode m q).tmpOf n = if n = m then 0 else s.tmpOf n := by
  simp only [RefState.tmpOf, RefState.freeNode, Function.update_apply]
  split <;> rfl

/-- A change of the node that leaves its `tmp_refs`. -/
theorem tmpOf_keep (hN : s.node m = some N) (h : N'.tmpRefs = N.tmpRefs) :
    (s.setNode m N').tmpOf n = s.tmpOf n := by
  rw [tmpOf_setNode]
  split
  · rename_i he
    rw [he, h, tmpOf_some hN]
  · rfl

theorem tmpOf_free {q : Option ProcId} (hN : s.node m = some N) (h : N.tmpRefs = 0) :
    (s.freeNode m q).tmpOf n = s.tmpOf n := by
  rw [tmpOf_freeNode]
  split
  · rename_i he
    rw [he, tmpOf_some hN, h]
  · rfl

theorem tmpOf_decNode (h : s.decNode m strong internal = some s') : s'.tmpOf n = s.tmpOf n := by
  obtain ⟨N, hN, ⟨-, rfl⟩ | ⟨hf, rfl⟩⟩ := decNode_cases h
  · obtain ⟨w, hw, -⟩ := N.dec_eq strong internal
    exact tmpOf_keep hN (by rw [hw]; simp)
  · exact tmpOf_free hN (by simpa using (Node.unused_iff.mp (Node.dec_free hf).1).2.2.2)

theorem tmpOf_decNilocked {free : Bool} (h : s.decNilocked m strong internal = some (free, s')) :
    s'.tmpOf n = s.tmpOf n := by
  obtain ⟨N, ns, hN, -, rfl, -⟩ := decNilocked_cases h
  obtain ⟨w, hw, -⟩ := N.dec_eq strong internal
  have hk : (N.dec strong internal).2.tmpRefs = N.tmpRefs := by rw [hw]; simp
  exact (tmpOf_keep hN hk :)

theorem tmpOf_putNode (h : s.putNode m = some s') :
    s'.tmpOf n = s.tmpOf n - if m = n then 1 else 0 := by
  obtain ⟨N, hN, -, hs'⟩ := putNode_cases h
  have hput : N.put.tmpRefs = N.tmpRefs - 1 := rfl
  rcases hs' with ⟨-, rfl⟩ | ⟨hf, rfl⟩
  · obtain ⟨w, hw, -⟩ := N.put.dec_eq false true
    rw [tmpOf_setNode, hw]
    by_cases hn : n = m
    · subst hn
      simp [tmpOf_some hN, hput]
    · simp [hn, Ne.symm hn]
  · have ht : N.put.tmpRefs = 0 := by simpa using (Node.unused_iff.mp (Node.dec_free hf).1).2.2.2
    rw [tmpOf_freeNode]
    by_cases hn : n = m
    · subst hn
      simp only [tmpOf_some hN, if_true]
      omega
    · simp [hn, Ne.symm hn]

theorem tmpOf_initNode {ptr cookie : Nat} (h : s.initNode p ptr cookie = some (m, s'))
    (hf : s.node s.nextNode = none) : s'.tmpOf n = s.tmpOf n + if m = n then 1 else 0 := by
  rcases initNode_cases h with ⟨N, -, hN, rfl⟩ | ⟨-, rfl, rfl⟩
  · rw [tmpOf_setNode]
    by_cases hn : n = m
    · subst hn
      simp [tmpOf_some hN]
    · simp [hn, Ne.symm hn]
  · have : s.tmpOf s.nextNode = 0 := by simp [RefState.tmpOf, hf]
    show (s.setNode s.nextNode (.fresh p ptr cookie)).tmpOf n = _
    rw [tmpOf_setNode]
    by_cases hn : n = s.nextNode
    · subst hn
      simp [this, Node.fresh]
    · simp [hn, Ne.symm hn]

theorem tmpOf_incRef {ok : Bool} (h : s.incRef L r strong list = some (ok, s')) :
    s'.tmpOf n = s.tmpOf n := by
  obtain ⟨R, -, ⟨-, -, rfl⟩ | ⟨-, -, rfl⟩ | ⟨-, -, N, hN, hok, rfl⟩⟩ := incRef_cases h
  · rfl
  · rfl
  · obtain ⟨w, hw, -⟩ := Node.inc_succeeds hok
    have hk : (N.inc strong true list (s.isMgr L R.node N)).2.tmpRefs = N.tmpRefs := by
      rw [hw]
      cases strong <;> rfl
    exact (tmpOf_keep hN hk :)

theorem tmpOf_decRef {last : Bool} (h : s.decRef r strong = some (last, s')) :
    s'.tmpOf n = s.tmpOf n := by
  obtain ⟨R, -, ⟨-, rfl, -⟩ | ⟨-, -, ⟨-, rfl⟩ | ⟨-, -, h⟩⟩⟩ := decRef_eq h
  · rfl
  · rfl
  · exact (tmpOf_decNode h :)

theorem tmpOf_addRef (h : s.addRef L p m = some s') : s'.tmpOf n = s.tmpOf n := by
  obtain ⟨N, qs, hN, -, rfl⟩ := addRef_eq h
  have hk : ({ N with refs := s.nextRef :: N.refs } : Node).tmpRefs = N.tmpRefs := rfl
  exact (tmpOf_keep hN hk :)

theorem tmpOf_cleanupRef (ht : Tables s) (h : s.cleanupRef r = some s') :
    s'.tmpOf n = s.tmpOf n := by
  obtain ⟨R, N, w, hR, hN, -, ⟨-, rfl⟩ | ⟨hf, rfl⟩⟩ :=
    cleanupRef_cases h fun R hR => ht.onNode r R hR
  · obtain ⟨w', hw', -⟩ := (N.unref r (R.strong != 0) w).dec_eq false true
    have hk : ((N.unref r (R.strong != 0) w).dec false true).2.tmpRefs = N.tmpRefs := by
      rw [hw']
      simp [Node.unref]
    exact (tmpOf_keep hN hk :)
  · have ht := (Node.unused_iff.mp (Node.dec_free hf).1).2.2.2
    show (s.freeNode R.node N.proc).tmpOf n = s.tmpOf n
    exact tmpOf_free hN (by simpa [Node.unref] using ht)

/-! ## The invariant -/

/-- The temporary references of a list of acts. -/
def tmpSum (n : NodeId) (acts : List Act) : Nat := (acts.map (Act.tmp n)).sum

@[simp] theorem tmpSum_nil : tmpSum n [] = 0 := rfl

@[simp] theorem tmpSum_cons : tmpSum n (act :: acts) = act.tmp n + tmpSum n acts := rfl

@[simp] theorem tmpSum_append : tmpSum n (acts ++ rest) = tmpSum n acts + tmpSum n rest := by
  simp [tmpSum]

theorem tmpSum_releaseActs {failed : Bool} : tmpSum n (releaseActs b B failed) =
    if failed && B.targetNode == some n then 1 else 0 := by
  cases hB : B.targetNode with
  | none => cases failed <;> simp [releaseActs, hB, Act.tmp]
  | some m =>
    cases failed with
    | false => simp [releaseActs, hB, Act.tmp]
    | true => simp [releaseActs, hB, Act.tmp]

theorem tmp_start : Tmp start := fun n => by simp [start, RefState.acting, RefState.tmpOf]

/-- One task goes on. -/
theorem Tmp.setTask (h : Tmp s) (ht : s.tasks[i]? = some ⟨a, act :: rest⟩)
    (hs : s'.tasks = s.tasks.set i ⟨a, acts⟩)
    (hn : ∀ n, (tmpSum n acts : Int) + s.tmpOf n ≤ tmpSum n (act :: rest) + s'.tmpOf n) : Tmp s' := by
  intro n
  have hsum : s'.acting (Act.tmp n) + tmpSum n (act :: rest) = s.acting (Act.tmp n) + tmpSum n acts :=
    acting_set ht hs
  have := h n
  have := hn n
  omega

/-- A task starts. -/
theorem Tmp.addTask (h : Tmp s) (hs : s'.tasks = s.tasks ++ [⟨a, acts⟩])
    (hn : ∀ n, (tmpSum n acts : Int) + s.tmpOf n ≤ s'.tmpOf n) : Tmp s' := by
  intro n
  have hsum : s'.acting (Act.tmp n) = s.acting (Act.tmp n) + tmpSum n acts := acting_append hs
  have := h n
  have := hn n
  omega

/-- A reference is taken on the node. -/
theorem tmpOf_take (hN : s.node m = some N) (h : N'.tmpRefs = N.tmpRefs + 1) :
    (s.setNode m N').tmpOf n = s.tmpOf n + if m = n then 1 else 0 := by
  rw [tmpOf_setNode]
  by_cases hn : n = m
  · subst hn
    simp [tmpOf_some hN, h]
  · simp [hn, Ne.symm hn]

theorem IncDone.tmp {why : Why} {res : Option RefId} (h : Tmp s) (hb : Builds s)
    (hd : IncDone s i a rest p n strong why res s') (ht : s.tasks[i]? = some ⟨a, act :: rest⟩)
    (hs : Shaped L ⟨a, act :: rest⟩)
    (hact : (∃ list, act = .incRef why p n strong list) ∨ (∃ list, act = .newRef why p n strong list) ∨
      ∃ r list, act = .incNewRef why p n r strong list) : Tmp s' := by
  have hzero (m : NodeId) : act.tmp m = 0 := by
    rcases hact with ⟨list, rfl⟩ | ⟨list, rfl⟩ | ⟨r, list, rfl⟩ <;> rfl
  cases hd with
  | object | command =>
    refine h.setTask ht rfl fun m => ?_
    rw [tmpSum_cons, hzero, Nat.zero_add]
    exact le_rfl
  | again =>
    refine h.setTask ht rfl fun m => ?_
    rw [tmpSum_cons, tmpSum_cons, hzero]
    exact le_rfl
  | @failed b B hB =>
    refine h.setTask ht rfl fun m => ?_
    obtain ⟨x, target, hrest⟩ : ∃ x target, rest = [.putNode n, .build x b target] := by
      rcases hact with ⟨list, rfl⟩ | ⟨list, rfl⟩ | ⟨r, list, rfl⟩
      all_goals
        obtain ⟨x, b, target, pre, rfl, hp, rfl⟩ := hs.inBuild rfl
        cases hp
        exact ⟨x, target, rfl⟩
    obtain ⟨B', hB', htg, -⟩ := hb.build _ (List.mem_of_getElem? ht) x b target (by simp [hrest])
    rw [hB] at hB'
    cases hB'
    rw [tmpSum_cons, tmpSum_cons, hzero, tmpSum_releaseActs, hrest, ← htg]
    show _ + s.tmpOf m ≤ _ + s.tmpOf m
    cases htg : B.targetNode with
    | none => simp [Act.tmp]
    | some k => simp [Act.tmp]

theorem ActStep.tmp (h : Tmp s) (htab : Tables s) (hb : Builds s)
    (hstep : ActStep L s i a rest act s') (ht : s.tasks[i]? = some ⟨a, act :: rest⟩)
    (hs : Shaped L ⟨a, act :: rest⟩) : Tmp s' := by
  have go {s₁ : RefState} {new : List Act} (htasks : s₁.tasks = s.tasks)
      (hn : ∀ n, (tmpSum n new : Int) + s.tmpOf n ≤ tmpSum n (act :: rest) + s₁.tmpOf n) :
      Tmp (s₁.setTask i a new) :=
    h.setTask ht (by rw [← htasks]; rfl) hn
  have fails {b : BufId} {B : Buffer} (new : List Act) (hB : s.bufs[b]? = some B)
      (hbuild : ∃ x target pre, act :: rest = pre ++ [.build x b target] ∧ ∀ n, tmpSum n new = tmpSum n pre) :
      Tmp ((s.setReleasing b B).setTask i a (new ++ releaseActs b B true)) := by
    obtain ⟨x, target, pre, hpre, hsum⟩ := hbuild
    obtain ⟨B', hB', htg, -⟩ := hb.build _ (List.mem_of_getElem? ht) x b target (by simp [hpre])
    rw [hB] at hB'
    cases hB'
    refine h.setTask ht rfl fun m => ?_
    rw [tmpSum_append, tmpSum_releaseActs, hpre, tmpSum_append, hsum, ← htg]
    show _ + s.tmpOf m ≤ _ + s.tmpOf m
    cases B.targetNode with
    | none => simp [Act.tmp]
    | some k => simp [Act.tmp]
  cases hstep with
  | checksFail => exact go rfl fun m => by simp [Act.tmp]
  | checks =>
    refine h.setTask ht rfl fun m => ?_
    show _ + s.tmpOf m ≤ _ + s.tmpOf m
    simp [Act.tmp]
  | newNodeFail hB =>
    obtain ⟨x, b, target, pre, rfl, hp, rfl⟩ := hs.inBuild rfl
    cases hp
    exact fails [] hB ⟨_, _, [_], rfl, fun _ => rfl⟩
  | translateBinderFail hB | translateHandleFail hB =>
    obtain ⟨x, b, target, pre, rfl, hp, rfl⟩ := hs.inBuild rfl
    cases hp
    exact fails [_] hB ⟨_, _, [_, _], rfl, fun _ => by simp [Act.tmp]⟩
  | newNode hn =>
    refine go (env_tasks (initNode_env hn)) fun m => ?_
    rw [tmpOf_initNode hn htab.fresh]
    simp only [tmpSum_cons, Act.tmp]
    split <;> push_cast <;> omega
  | translateBinder | translateHandle | incAlloc =>
    exact go rfl fun m => by simp [Act.tmp]
  | @translateOwn _ _ n strong N B hN hB =>
    refine h.setTask ht rfl fun m => ?_
    have hk : (N.inc strong false none (s.isMgr L n N)).2.tmpRefs = N.tmpRefs := by
      rw [Node.inc_local]
      cases strong <;> rfl
    have := tmpOf_keep (n := m) hN hk
    show _ + s.tmpOf m ≤ _ + (s.setNode n (N.inc strong false none (s.isMgr L n N)).2).tmpOf m
    rw [this]
    simp [Act.tmp]
  | incFound hact _ _ hinc hdone =>
    have henv := incRef_env hinc
    have h₁ : Tmp _ := fun m => by
      have := h m
      rw [RefState.acting, ← env_tasks henv, ← tmpOf_incRef hinc] at this
      exact this
    refine hdone.tmp h₁ (hb.of_env henv) (by rw [env_tasks henv]; exact ht) hs ?_
    rcases hact with rfl | rfl
    · exact .inl ⟨_, rfl⟩
    · exact .inr (.inl ⟨_, rfl⟩)
  | incNoMem _ _ hdone => exact hdone.tmp h hb ht hs (.inl ⟨_, rfl⟩)
  | incNew hinc hdone =>
    have henv := incRef_env hinc
    have h₁ : Tmp _ := fun m => by
      have := h m
      rw [RefState.acting, ← env_tasks henv, ← tmpOf_incRef hinc] at this
      exact this
    exact hdone.tmp h₁ (hb.of_env henv) (by rw [env_tasks henv]; exact ht) hs (.inr (.inr ⟨_, _, rfl⟩))
  | addRef _ _ hadd =>
    refine go (env_tasks (addRef_env hadd)) fun m => ?_
    rw [tmpOf_addRef hadd]
    simp [Act.tmp]
  | decNode hd =>
    refine go (env_tasks (decNode_env hd)) fun m => ?_
    rw [tmpOf_decNode hd]
    simp [Act.tmp]
  | putNode hp =>
    refine go (env_tasks (putNode_env hp)) fun m => ?_
    rw [tmpOf_putNode hp]
    simp only [tmpSum_cons, Act.tmp]
    split <;> push_cast <;> omega
  | releaseEnd | releaseSkip | updateNone | doneBad | clearNone | clearMgr | setDead | releaseNodesEnd
  | releaseRefsEnd =>
    refine go rfl fun m => ?_
    show _ + s.tmpOf m ≤ _ + s.tmpOf m
    simp [Act.tmp]
  | releaseBinder _ _ hN =>
    refine go rfl fun m => ?_
    rw [tmpOf_take hN rfl]
    simp only [tmpSum_cons, Act.tmp]
    split <;> push_cast <;> omega
  | @releaseHandle _ _ _ _ last _ _ _ _ hd =>
    refine go (env_tasks (decRef_env hd)) fun m => ?_
    rw [tmpOf_decRef hd]
    cases last <;> simp [Act.tmp]
  | cleanupRef hc =>
    refine go (env_tasks (cleanupRef_env hc)) fun m => ?_
    rw [tmpOf_cleanupRef htab hc]
    simp [Act.tmp]
  | freeBuf =>
    refine go rfl fun m => ?_
    show _ + s.tmpOf m ≤ _ + s.tmpOf m
    simp [Act.tmp]
  | updateInc _ _ hinc =>
    refine go (env_tasks (incRef_env hinc)) fun m => ?_
    rw [tmpOf_incRef hinc]
    simp [Act.tmp]
  | @updateDec _ _ _ _ last _ _ _ hd =>
    refine go (env_tasks (decRef_env hd)) fun m => ?_
    rw [tmpOf_decRef hd]
    cases last <;> simp [Act.tmp]
  | @done n strong N free s₁ hN _ hd =>
    have henv := decNilocked_env hd
    refine go (env_tasks henv :) fun m => ?_
    have hk : (N.clearPending strong).tmpRefs = N.tmpRefs := by cases strong <;> rfl
    have htmp : s₁.tmpOf m = s.tmpOf m := (tmpOf_decNilocked hd).trans (tmpOf_keep hN hk)
    show _ + s.tmpOf m ≤ _ + s₁.tmpOf m
    rw [htmp]
    simp [Act.tmp]
  | becomeMgr hN =>
    refine go rfl fun m => ?_
    show _ + s.tmpOf m ≤ _ + (s.setNode _ _).tmpOf m
    rw [tmpOf_keep hN (by rfl)]
    simp [Act.tmp]
  | dropWork _ hN =>
    refine go rfl fun m => ?_
    rw [tmpOf_keep hN (by rfl)]
  | dropEnd hact =>
    refine go rfl fun m => ?_
    rcases hact with ⟨l, rfl⟩ | ⟨p, rfl⟩ <;> simp [Act.tmp]
  | releaseNodes _ hN =>
    refine go rfl fun m => ?_
    show _ + s.tmpOf m ≤ _ + (s.setNode _ _).tmpOf m
    rw [tmpOf_take hN rfl]
    simp only [tmpSum_cons, Act.tmp]
    split <;> push_cast <;> omega
  | @nodeReleaseFree p n N hN _ h1 =>
    refine go rfl fun m => ?_
    rw [tmpOf_freeNode]
    simp only [tmpSum_cons, Act.tmp]
    by_cases hm : m = n
    · subst hm
      rw [tmpOf_some hN, h1, if_pos rfl, if_pos rfl]
      push_cast
      omega
    · simp [hm, Ne.symm hm]
  | nodeRelease hN =>
    refine go rfl fun m => ?_
    rw [tmpOf_keep hN (by rfl)]
    simp [Act.tmp]
  | releaseRefs _ _ hc =>
    refine go (env_tasks (cleanupRef_env hc)) fun m => ?_
    rw [tmpOf_cleanupRef htab hc]

theorem Tmp.exec (h : Tmp s) (htab : Tables s) (hb : Builds s) (hs : Shape L s)
    (he : s.exec L op = some s') : Tmp s' := by
  cases exec_cases he with
  | transaction _ _ hN =>
    refine h.addTask rfl fun m => ?_
    show _ ≤ (s.setNode _ _).tmpOf m
    rw [tmpOf_take hN rfl]
    simp only [tmpSum_cons, Act.tmp, tmpSum_nil]
    split <;> push_cast <;> omega
  | reply =>
    refine h.addTask rfl fun m => ?_
    show _ ≤ s.tmpOf m
    simp [Act.tmp]
  | binderFound ht _ _ hN =>
    refine h.setTask ht rfl fun m => ?_
    show _ ≤ _ + (s.setNode _ _).tmpOf m
    rw [tmpOf_take hN rfl]
    simp only [tmpSum_cons, Act.tmp]
    split <;> push_cast <;> omega
  | binderNew ht =>
    refine h.setTask ht rfl fun m => ?_
    show _ ≤ _ + s.tmpOf m
    simp [Act.tmp]
  | handle ht _ _ _ _ hN =>
    refine h.setTask ht rfl fun m => ?_
    show _ ≤ _ + (s.setNode _ _).tmpOf m
    rw [tmpOf_take hN rfl]
    simp only [tmpSum_cons, Act.tmp]
    split <;> push_cast <;> omega
  | @fails _ i a x b target rest B _ ht hB =>
    obtain ⟨rfl, rfl⟩ := (hs.task _ (List.mem_of_getElem? ht)).build
    obtain ⟨B', hB', htg, -⟩ := hb.build _ (List.mem_of_getElem? ht) x b target (by simp)
    rw [hB] at hB'
    cases hB'
    refine h.setTask ht rfl fun m => ?_
    show _ ≤ _ + s.tmpOf m
    rw [tmpSum_releaseActs, ← htg]
    cases B.targetNode <;> simp [Act.tmp]
  | @send i a x b target rest B ht hB =>
    refine h.setTask ht rfl fun m => ?_
    show _ ≤ _ + s.tmpOf m
    cases target <;> simp [Act.tmp]
  | freeBuffer =>
    refine h.addTask rfl fun m => ?_
    show _ ≤ s.tmpOf m
    rw [tmpSum_releaseActs]
    simp
  | update | updateMgr | threadExit | close =>
    refine h.addTask rfl fun m => ?_
    show _ ≤ s.tmpOf m
    simp [Act.tmp]
  | doneCommand _ _ hN | nodeInfo _ _ _ _ hN | showNode _ hN =>
    refine h.addTask rfl fun m => ?_
    show _ ≤ (s.setNode _ _).tmpOf m
    rw [tmpOf_take hN rfl]
    simp only [tmpSum_cons, Act.tmp, tmpSum_nil]
    split <;> push_cast <;> omega
  | tell _ hN =>
    intro m
    show (s.acting (Act.tmp m) : Int) ≤ (s.setNode _ _).tmpOf m
    rw [tmpOf_keep hN (by rfl)]
    exact h m
  | @tellFree x n _ _ _ hN _ _ hw =>
    intro m
    show (s.acting (Act.tmp m) : Int) ≤ (s.freeNode n (some (L.procOf x))).tmpOf m
    rw [tmpOf_free hN (Node.weak_eq_false.mp hw).2.2.1]
    exact h m
  | @setCtxMgr x ptr cookie n s₁ _ _ _ hn =>
    have htasks := env_tasks (initNode_env hn)
    have : (s₁.addTask (.thread x) [.becomeMgr (L.ctxOf (L.procOf x)) n, .putNode n]).tasks =
        s.tasks ++ [⟨.thread x, [.becomeMgr (L.ctxOf (L.procOf x)) n, .putNode n]⟩] := by
      rw [← htasks]
      rfl
    refine h.addTask this fun m => ?_
    show _ ≤ s₁.tmpOf m
    rw [tmpOf_initNode hn htab.fresh]
    simp only [tmpSum_cons, Act.tmp, tmpSum_nil]
    split <;> push_cast <;> omega
  | run ht hact => exact hact.tmp h htab hb ht (hs.task _ (List.mem_of_getElem? ht))

end Redroid.Binder.Refs
