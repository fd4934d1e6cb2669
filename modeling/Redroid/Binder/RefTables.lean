import Mathlib.Data.List.Pairwise
import Redroid.Binder.RefNode
import Redroid.Lib.Count

/-!
# The tables of the references

The same relation is stored four times: in `refs_by_desc` and `refs_by_node` of the process, on
`node->refs`, and as the counter `internal_strong_refs` of the node.

* `SameRefs`: a step that touches none of them; `RefStep`: every step either is one, or increments,
  decrements, adds or removes one reference and then is one (`exec_refStep`).
* `Tables`: the four agree. `tables_of_reach`: in every reachable state.
-/

namespace Redroid.Binder.Refs

open RefState

/-- The part of the state that the tables are about. -/
def RefState.tabs (s : RefState) :=
  (s.node, s.ref, s.refsByDesc, s.refsByNode, s.nextRef, s.nextNode)

/-- The references and the tables are the same, and so are `refs` and `internal_strong_refs` of the
nodes; a node without references may come or go. -/
structure SameRefs (s s' : RefState) : Prop where
  ref : s'.ref = s.ref
  byDesc : s'.refsByDesc = s.refsByDesc
  byNode : s'.refsByNode = s.refsByNode
  nextRef : s'.nextRef = s.nextRef
  nextNode : s.nextNode ≤ s'.nextNode
  node : ∀ {n N'}, s'.node n = some N' →
    (∃ N, s.node n = some N ∧ N'.refs = N.refs ∧ N'.internalStrongRefs = N.internalStrongRefs) ∨
      (s.nextNode ≤ n ∧ n < s'.nextNode ∧ N'.refs = [] ∧ N'.internalStrongRefs = 0)
  kept : ∀ {n N}, s.node n = some N → N.refs ≠ [] → ∃ N', s'.node n = some N' ∧ N'.refs = N.refs

/-- The number that a new reference of `p` to `n` gets. -/
def RefState.nextDesc (L : Layout) (s : RefState) (p : ProcId) (n : NodeId) : Nat :=
  freeDesc ((s.refsByDesc p).map s.descOf) (if s.ctxMgr (L.ctxOf p) = some n then 0 else 1)

/-- The act increments the reference `r`. -/
inductive Raises (s : RefState) (r : RefId) (strong : Bool) (list : Option ThreadId) : Act → Prop
  | found {act why p n} : act = .incRef why p n strong list ∨ act = .newRef why p n strong list →
      s.getRefForNode p n = some r → Raises s r strong list act
  | new {why p n} : Raises s r strong list (.incNewRef why p n r strong list)
  | update {p desc} : s.getRef p desc strong = some r → list = none →
      Raises s r strong list (.updateRef p desc true strong)

/-- The act decrements the reference `r` of the process `p`. -/
inductive Lowers (s : RefState) (p : ProcId) (r : RefId) : Bool → Act → Prop
  | object {o os} : s.getRef p o.handle o.strong = some r →
      Lowers s p r o.strong (.releaseObjects p (o :: os))
  | update {desc strong} : s.getRef p desc strong = some r →
      Lowers s p r strong (.updateRef p desc false strong)

/-- The act removes the reference `r`. -/
inductive Removes (s : RefState) (r : RefId) : Act → Prop
  | cleanup {p} : Removes s r (.cleanupRef p r)
  | release {p rs} : s.refsByDesc p = r :: rs → Removes s r (.releaseRefs p)

/-- The act that the step `op` does. -/
def Runs (s : RefState) (op : RefOp) (act : Act) : Prop :=
  ∃ i ok a rest, op = .run i ok ∧ s.tasks[i]? = some ⟨a, act :: rest⟩

/-- What a step does to the references; where the task keeps the outer lock, with its next act. -/
inductive RefStep (L : Layout) (s : RefState) : RefOp → RefState → Prop
  | same {op s'} : SameRefs s s' → (∀ act, Runs s op act → act.outer = none) → RefStep L s op s'
  | inc {i a act rest r strong list ok done s₁ s'} : s.tasks[i]? = some ⟨a, act :: rest⟩ →
      Raises s r strong list act → s.incRef L r strong list = some (done, s₁) → SameRefs s₁ s' →
      RefStep L s (.run i ok) s'
  | dec {i a act rest p r strong ok last s₁ s'} : s.tasks[i]? = some ⟨a, act :: rest⟩ →
      Lowers s p r strong act → s.decRef r strong = some (last, s₁) → SameRefs s₁ s' →
      (last = true → ∃ rest', s'.tasks[i]? = some ⟨a, .cleanupRef p r :: rest'⟩) →
      RefStep L s (.run i ok) s'
  | add {i a why p n strong list rest ok s₁ s'} :
      s.tasks[i]? = some ⟨a, .newRef why p n strong list :: rest⟩ → s.getRefForNode p n = none →
      s.addRef L p n = some s₁ → SameRefs s₁ s' →
      s'.tasks[i]? = some ⟨a, .incNewRef why p n s.nextRef strong list :: rest⟩ →
      RefStep L s (.run i ok) s'
  | remove {i a act rest r ok s₁ s'} : s.tasks[i]? = some ⟨a, act :: rest⟩ → Removes s r act →
      s.cleanupRef r = some s₁ → SameRefs s₁ s' → RefStep L s (.run i ok) s'

variable {L : Layout} {s s' s₁ : RefState} {n : NodeId} {N N' : Node} {p : ProcId} {r : RefId}
  {R R' : Ref} {i : Nat} {a : Actor} {act : Act} {rest : List Act} {op : RefOp}

/-! ## Steps that touch no reference -/

namespace SameRefs

theorem of_tabs (h : s'.tabs = s.tabs) : SameRefs s s' := by
  simp only [RefState.tabs, Prod.mk.injEq] at h
  obtain ⟨hn, hr, hd, hb, hnr, hnn⟩ := h
  refine ⟨hr, hd, hb, hnr, hnn.ge, ?_, ?_⟩
  · intro n N' h
    exact .inl ⟨N', hn ▸ h, rfl, rfl⟩
  · intro n N h _
    exact ⟨N, by rw [hn, h], rfl⟩

/-- The rest of the state does not matter. -/
theorem upTo (h : SameRefs s s₁) (he : s'.tabs = s₁.tabs) : SameRefs s s' := by
  simp only [RefState.tabs, Prod.mk.injEq] at he
  obtain ⟨hn, hr, hd, hb, hnr, hnn⟩ := he
  refine ⟨hr ▸ h.ref, hd ▸ h.byDesc, hb ▸ h.byNode, hnr ▸ h.nextRef, hnn ▸ h.nextNode, ?_, ?_⟩
  · intro n N' hN'
    rw [hnn]
    exact h.node (hn ▸ hN')
  · intro n N hN hne
    rw [hn]
    exact h.kept hN hne

theorem setNode (hN : s.node n = some N) (hr : N'.refs = N.refs)
    (hi : N'.internalStrongRefs = N.internalStrongRefs) : SameRefs s (s.setNode n N') := by
  refine ⟨rfl, rfl, rfl, rfl, le_refl _, ?_, ?_⟩
  · intro m M' hM'
    simp only [RefState.setNode, Function.update_apply] at hM'
    split at hM'
    · rename_i he
      cases hM'
      exact .inl ⟨N, he ▸ hN, hr, hi⟩
    · exact .inl ⟨M', hM', rfl, rfl⟩
  · intro m M hM _
    simp only [RefState.setNode, Function.update_apply]
    split
    · rename_i he
      rw [he, hN] at hM
      cases hM
      exact ⟨N', rfl, hr⟩
    · exact ⟨M, hM, rfl⟩

/-- Only the node `n` changes, as far as the tables are concerned. -/
theorem onlyNode (hN : s.node n = some N) (he : s'.tabs = (s.setNode n N').tabs)
    (hr : N'.refs = N.refs) (hi : N'.internalStrongRefs = N.internalStrongRefs) : SameRefs s s' :=
  (SameRefs.setNode hN hr hi).upTo he

theorem freeNode (hN : s.node n = some N) (hr : N.refs = [])
    (he : s'.tabs = (s.freeNode n none).tabs) : SameRefs s s' := by
  suffices h : SameRefs s (s.freeNode n none) from h.upTo he
  refine ⟨rfl, rfl, rfl, rfl, le_refl _, ?_, ?_⟩
  · intro m M' hM'
    simp only [RefState.freeNode, Function.update_apply] at hM'
    split at hM'
    · cases hM'
    · exact .inl ⟨M', hM', rfl, rfl⟩
  · intro m M hM hne
    simp only [RefState.freeNode, Function.update_apply]
    split
    · rename_i he
      rw [he, hN] at hM
      cases hM
      exact absurd hr hne
    · exact ⟨M, hM, rfl⟩

theorem initNode {ptr cookie : Nat} (h : s.initNode p ptr cookie = some (n, s'))
    (hf : s.node s.nextNode = none) : SameRefs s s' := by
  rcases initNode_cases h with ⟨N, -, hN, rfl⟩ | ⟨-, rfl, rfl⟩
  · exact .setNode hN rfl rfl
  · refine ⟨rfl, rfl, rfl, rfl, Nat.le_succ _, ?_, ?_⟩
    · intro m M' hM'
      simp only [RefState.setNode, Function.update_apply] at hM'
      split at hM'
      · rename_i he
        cases hM'
        exact .inr ⟨he.ge, he ▸ Nat.lt_succ_self _, rfl, rfl⟩
      · exact .inl ⟨M', hM', rfl, rfl⟩
    · intro m M hM _
      have hne : m ≠ s.nextNode := by
        rintro rfl
        rw [hf] at hM
        cases hM
      exact ⟨M, by simp [RefState.setNode, hne, hM], rfl⟩

/-- A local decrement of the node. -/
theorem decNode {strong : Bool} (h : s.decNode n strong false = some s') : SameRefs s s' := by
  obtain ⟨N, hN, ⟨-, rfl⟩ | ⟨hf, rfl⟩⟩ := decNode_cases h
  · obtain ⟨w, hw, -⟩ := N.dec_eq strong false
    exact .setNode hN (by rw [hw]; simp) (by rw [hw]; simp [Node.drop_internal])
  · exact .freeNode hN (by simpa using (Node.unused_iff.mp (Node.dec_free hf).1).1) rfl

theorem putNode (h : s.putNode n = some s') : SameRefs s s' := by
  obtain ⟨N, hN, -, ⟨-, rfl⟩ | ⟨hf, rfl⟩⟩ := putNode_cases h
  · obtain ⟨w, hw, -⟩ := N.put.dec_eq false true
    exact .setNode hN (by rw [hw]; simp [Node.put])
      (by rw [hw]; simp [Node.drop_internal, Node.put])
  · exact .freeNode hN (by simpa [Node.put] using (Node.unused_iff.mp (Node.dec_free hf).1).1) rfl

theorem incDone {p strong why res} (h : IncDone s i a rest p n strong why res s') :
    SameRefs s s' := by
  cases h with
  | object | failed | command | again => exact .of_tabs rfl

end SameRefs

/-! ## Steps on one reference -/

/-- The count of the reference. -/
def Ref.count (R : Ref) (strong : Bool) : Int32 := if strong then R.strong else R.weak

/-- The reference with the count changed. -/
def Ref.setCount (R : Ref) (strong : Bool) (k : Int32) : Ref :=
  if strong then { R with strong := k } else { R with weak := k }

/-- Both counts are 0. -/
def Ref.unused (R : Ref) : Bool := R.strong == 0 && R.weak == 0

@[simp] theorem Ref.setCount_proc {strong : Bool} {k : Int32} : (R.setCount strong k).proc = R.proc := by
  unfold Ref.setCount
  split <;> rfl

@[simp] theorem Ref.setCount_node {strong : Bool} {k : Int32} : (R.setCount strong k).node = R.node := by
  unfold Ref.setCount
  split <;> rfl

@[simp] theorem Ref.setCount_desc {strong : Bool} {k : Int32} : (R.setCount strong k).desc = R.desc := by
  unfold Ref.setCount
  split <;> rfl

theorem Ref.setCount_strong {strong : Bool} {k : Int32} :
    (R.setCount strong k).strong = if strong then k else R.strong := by
  unfold Ref.setCount
  split <;> rfl

/-- What `binder_inc_ref_olocked` does. -/
theorem incRef_cases {strong ok : Bool} {list : Option ThreadId}
    (h : s.incRef L r strong list = some (ok, s')) : ∃ R, s.ref r = some R ∧
      ((ok = false ∧ R.count strong = 0 ∧ s' = s) ∨
        (ok = true ∧ R.count strong ≠ 0 ∧
          s' = s.setRef r (R.setCount strong (R.count strong + 1))) ∨
        (ok = true ∧ R.count strong = 0 ∧ ∃ N, s.node R.node = some N ∧
          (N.inc strong true list (s.isMgr L R.node N)).1 = true ∧
          s' = (s.setNode R.node (N.inc strong true list (s.isMgr L R.node N)).2).setRef r
            (R.setCount strong (R.count strong + 1)))) := by
  simp only [RefState.incRef, bind, Option.bind_eq_some_iff] at h
  obtain ⟨R, hR, h⟩ := h
  have hset : (if strong = true then { R with strong := R.strong + 1 }
      else { R with weak := R.weak + 1 }) = R.setCount strong (R.count strong + 1) := by
    cases strong <;> rfl
  have hcount : (if strong = true then R.strong else R.weak) = R.count strong := rfl
  rw [hset, hcount] at h
  refine ⟨R, hR, ?_⟩
  split at h
  · rename_i hc
    obtain ⟨N, hN, h⟩ := Option.bind_eq_some_iff.mp h
    simp only [Option.some.injEq, Prod.mk.injEq] at h
    obtain ⟨hok, hs⟩ := h
    cases ok with
    | false =>
      rw [hok, Node.inc_failed hok] at hs
      refine .inl ⟨rfl, hc, ?_⟩
      rw [← hs]
      simp [RefState.setNode, ← hN]
    | true =>
      rw [hok, if_pos rfl] at hs
      exact .inr (.inr ⟨rfl, hc, N, hN, hok, hs.symm⟩)
  · rename_i hc
    cases h
    exact .inr (.inl ⟨rfl, hc, rfl⟩)

theorem env_tasks (h : s'.env = s.env) : s'.tasks = s.tasks := by
  simp only [RefState.env, Prod.mk.injEq] at h
  exact h.2.2.2.2.2.1

theorem env_closed (h : s'.env = s.env) : s'.closed = s.closed := by
  simp only [RefState.env, Prod.mk.injEq] at h
  exact h.2.1

theorem env_bufs (h : s'.env = s.env) : s'.bufs = s.bufs := by
  simp only [RefState.env, Prod.mk.injEq] at h
  exact h.2.2.2.2.1

theorem env_ctxMgr (h : s'.env = s.env) : s'.ctxMgr = s.ctxMgr := by
  simp only [RefState.env, Prod.mk.injEq] at h
  exact h.1

theorem incRef_env {strong ok : Bool} {list : Option ThreadId}
    (h : s.incRef L r strong list = some (ok, s')) : s'.env = s.env := by
  obtain ⟨R, -, ⟨-, -, rfl⟩ | ⟨-, -, rfl⟩ | ⟨-, -, N, -, -, rfl⟩⟩ := incRef_cases h <;> rfl

/-- What `binder_dec_ref_olocked` does. -/
theorem decRef_eq {strong last : Bool} (h : s.decRef r strong = some (last, s')) :
    ∃ R, s.ref r = some R ∧
      ((R.count strong = 0 ∧ s' = s ∧ last = false) ∨
        (R.count strong ≠ 0 ∧ last = (R.setCount strong (R.count strong - 1)).unused ∧
          (((strong = true → R.count strong ≠ 1) ∧
            s' = s.setRef r (R.setCount strong (R.count strong - 1))) ∨
          (strong = true ∧ R.count strong = 1 ∧
            (s.setRef r (R.setCount strong (R.count strong - 1))).decNode R.node true true =
              some s')))) := by
  simp only [RefState.decRef, bind, Option.bind_eq_some_iff] at h
  obtain ⟨R, hR, h⟩ := h
  have hset : (if strong = true then { R with strong := R.strong - 1 }
      else { R with weak := R.weak - 1 }) = R.setCount strong (R.count strong - 1) := by
    cases strong <;> rfl
  have hcount : (if strong = true then R.strong else R.weak) = R.count strong := rfl
  rw [hset, hcount] at h
  refine ⟨R, hR, ?_⟩
  split at h
  · rename_i hc
    cases h
    exact .inl ⟨hc, rfl, rfl⟩
  rename_i hc
  split at h
  · rename_i hz
    obtain ⟨s₁, hs₁, h⟩ := Option.bind_eq_some_iff.mp h
    cases h
    rw [Bool.and_eq_true, beq_iff_eq] at hz
    obtain ⟨rfl, hz⟩ := hz
    have h1 : R.count true = 1 := by
      simp only [Ref.setCount, if_true] at hz
      grind
    exact .inr ⟨hc, rfl, .inr ⟨rfl, h1, hs₁⟩⟩
  · rename_i hz
    cases h
    refine .inr ⟨hc, rfl, .inl ⟨?_, rfl⟩⟩
    rintro rfl h1
    apply hz
    simp [Ref.setCount, h1]

theorem decRef_env {strong last : Bool} (h : s.decRef r strong = some (last, s')) :
    s'.env = s.env := by
  obtain ⟨R, -, ⟨-, rfl, -⟩ | ⟨-, -, ⟨-, rfl⟩ | ⟨-, -, h⟩⟩⟩ := decRef_eq h
  · rfl
  · rfl
  · rw [decNode_env h]
    rfl

/-- What `binder_dec_ref_olocked` does, for a reference that is on the list of its node. -/
theorem decRef_cases {strong last : Bool} (h : s.decRef r strong = some (last, s'))
    (ho : ∀ R, s.ref r = some R → ∃ N, s.node R.node = some N ∧ r ∈ N.refs) :
    ∃ R, s.ref r = some R ∧
      ((R.count strong = 0 ∧ s' = s ∧ last = false) ∨
        (R.count strong ≠ 0 ∧ last = (R.setCount strong (R.count strong - 1)).unused ∧
          (strong = true → R.count strong ≠ 1) ∧
          s' = s.setRef r (R.setCount strong (R.count strong - 1))) ∨
        (R.count strong = 1 ∧ last = (R.setCount strong (R.count strong - 1)).unused ∧
          strong = true ∧ ∃ N, s.node R.node = some N ∧
          s' = (s.setNode R.node (N.dec true true).2).setRef r
            (R.setCount strong (R.count strong - 1)))) := by
  obtain ⟨R, hR, h | ⟨hc, hlast, ⟨hne, rfl⟩ | ⟨hst, h1, hd⟩⟩⟩ := decRef_eq h
  · exact ⟨R, hR, .inl h⟩
  · exact ⟨R, hR, .inr (.inl ⟨hc, hlast, hne, rfl⟩)⟩
  · refine ⟨R, hR, .inr (.inr ⟨h1, hlast, hst, ?_⟩)⟩
    obtain ⟨N, hN, hr⟩ := ho R hR
    obtain ⟨N', hN', ⟨-, rfl⟩ | ⟨hf, -⟩⟩ := decNode_cases hd
    · obtain rfl : N' = N := Option.some.inj (hN'.symm.trans hN)
      exact ⟨N', hN, rfl⟩
    · -- the node has this reference
      have := (Node.unused_iff.mp (Node.dec_free hf).1).1
      rw [Node.drop_refs, show N' = N from Option.some.inj (hN'.symm.trans hN)] at this
      rw [this] at hr
      cases hr

/-- The reference `r` leaves the tables of its process. -/
def RefState.dropRef (s : RefState) (r : RefId) (R : Ref) : RefState :=
  { s with
    ref := Function.update s.ref r none
    refsByDesc := Function.update s.refsByDesc R.proc ((s.refsByDesc R.proc).erase r)
    refsByNode := Function.update s.refsByNode R.proc ((s.refsByNode R.proc).erase r) }

/-- The node after `hlist_del` of the reference `r`, a strong one or not. -/
def Node.unref (N : Node) (r : RefId) (strong : Bool) (w : Option WorkList) : Node :=
  { N.drop strong true with refs := N.refs.erase r, work := w }

/-- What `binder_cleanup_ref_olocked` and `binder_free_ref` do, for a reference that is on the list of
its node. -/
theorem cleanupRef_cases (h : s.cleanupRef r = some s')
    (ho : ∀ R, s.ref r = some R → ∃ N, s.node R.node = some N ∧ r ∈ N.refs) :
    ∃ R N w, s.ref r = some R ∧ s.node R.node = some N ∧
      w = (if R.strong = 0 then N else (N.dec true true).2).work ∧
      ((((N.unref r (R.strong != 0) w).dec false true).1 = false ∧
          s' = (s.dropRef r R).setNode R.node ((N.unref r (R.strong != 0) w).dec false true).2) ∨
        (((N.unref r (R.strong != 0) w).dec false true).1 = true ∧
          s' = (s.dropRef r R).freeNode R.node N.proc)) := by
  simp only [RefState.cleanupRef, bind, Option.bind_eq_some_iff] at h
  obtain ⟨R, hR, h⟩ := h
  obtain ⟨N, hN, hr⟩ := ho R hR
  refine ⟨R, N, ?_⟩
  -- the tail, from the node `M` with the strong reference dropped
  have tail {s₁ s₂ : RefState} {w : Option WorkList} {M : Node}
      (hs₁ : s₁ = { (s.dropRef r R).setNode R.node M with ref := s.ref })
      (hM : M = { N.drop (R.strong != 0) true with work := w })
      (h₂ : (s₁.setNode R.node { M with refs := M.refs.erase r }).decNode R.node false true = some s₂)
      (hs' : s' = { s₂ with ref := Function.update s₂.ref r none }) :
      (((N.unref r (R.strong != 0) w).dec false true).1 = false ∧
          s' = (s.dropRef r R).setNode R.node ((N.unref r (R.strong != 0) w).dec false true).2) ∨
        (((N.unref r (R.strong != 0) w).dec false true).1 = true ∧
          s' = (s.dropRef r R).freeNode R.node N.proc) := by
    have hM' : { M with refs := M.refs.erase r } = N.unref r (R.strong != 0) w := by
      subst hM
      simp only [Node.unref, Node.drop_refs]
    obtain ⟨K, hK, hcases⟩ := decNode_cases h₂
    rw [hM'] at hK hcases
    simp only [RefState.setNode, Function.update_self, Option.some.injEq] at hK
    subst hK
    subst hs₁
    rcases hcases with ⟨hf, rfl⟩ | ⟨hf, rfl⟩
    · exact .inl ⟨hf, by rw [hs']; simp [RefState.setNode, RefState.dropRef]⟩
    · refine .inr ⟨hf, ?_⟩
      rw [hs']
      simp [RefState.freeNode, RefState.setNode, RefState.dropRef, Node.unref]
  split at h
  · rename_i hs
    simp only [Option.bind_eq_some_iff] at h
    obtain ⟨⟨free, s₂⟩, h₂, s₁, hs₁, M, hM, s₃, h₃, h⟩ := h
    cases hs₁
    have hstrong : (R.strong != 0) = true := by simpa using hs
    obtain ⟨N', ns, hN', hfree, heq, hns⟩ := decNilocked_cases h₂
    obtain rfl : N' = N := Option.some.inj (hN'.symm.trans hN)
    have hnf : (N'.dec true true).1 = false := by
      by_contra hf
      have := (Node.unused_iff.mp (Node.dec_free (by simpa using hf)).1).1
      rw [Node.drop_refs] at this
      rw [this] at hr
      cases hr
    rw [hns (hfree ▸ hnf)] at heq
    obtain ⟨w, hw, -⟩ := N'.dec_eq true true
    have hM' : M = { N'.drop true true with work := w } := by
      rw [heq, hw] at hM
      simpa [RefState.setNode] using hM.symm
    refine ⟨w, hR, hN, ?_, tail (w := w) (M := M) ?_ (by rw [hstrong]; exact hM') h₃ (by cases h; rfl)⟩
    · rw [if_neg hs, hw]
    · rw [heq, hM', hw]
      rfl
  · rename_i hs
    simp only [Option.bind_eq_some_iff] at h
    obtain ⟨s₁, hs₁, M, hM, s₃, h₃, h⟩ := h
    cases hs₁
    have hstrong : (R.strong != 0) = false := by simpa using hs
    obtain rfl : M = N := Option.some.inj (hM.symm.trans hN)
    refine ⟨M.work, hR, hN, by rw [if_pos (not_not.mp hs)], tail (w := M.work) (M := M) ?_ ?_ h₃
      (by cases h; rfl)⟩
    · simp [RefState.dropRef, RefState.setNode, ← hN]
    · rw [hstrong]
      rfl

/-- What `binder_get_ref_for_node_olocked` does with a new reference. -/
theorem addRef_eq (h : s.addRef L p n = some s') : ∃ N qs, s.node n = some N ∧
    s.insertDesc s.nextRef (s.nextDesc L p n) (s.refsByDesc p) = some qs ∧
    s' = { (s.setNode n { N with refs := s.nextRef :: N.refs }).setRef s.nextRef
        ⟨p, s.nextDesc L p n, n, 0, 0⟩ with
      refsByDesc := Function.update s.refsByDesc p qs
      refsByNode := Function.update s.refsByNode p (s.nextRef :: s.refsByNode p)
      nextRef := s.nextRef + 1 } := by
  simp only [RefState.addRef, bind, Option.bind_eq_some_iff] at h
  obtain ⟨N, hN, qs, hqs, h⟩ := h
  cases h
  exact ⟨N, qs, hN, hqs, rfl⟩

theorem addRef_env (h : s.addRef L p n = some s') : s'.env = s.env := by
  obtain ⟨N, qs, -, -, rfl⟩ := addRef_eq h
  rfl

theorem cleanupRef_env (h : s.cleanupRef r = some s') : s'.env = s.env := by
  simp only [RefState.cleanupRef, bind, Option.bind_eq_some_iff] at h
  obtain ⟨R, -, h⟩ := h
  split at h
  · simp only [Option.bind_eq_some_iff] at h
    obtain ⟨⟨free, s₁⟩, h₁, s₂, hs₂, M, -, s₃, h₃, h⟩ := h
    cases hs₂
    cases h
    have henv := decNode_env h₃
    have henv₁ := decNilocked_env h₁
    exact henv.trans henv₁
  · simp only [Option.bind_eq_some_iff] at h
    obtain ⟨s₁, hs₁, M, -, s₃, h₃, h⟩ := h
    cases hs₁
    cases h
    have henv := decNode_env h₃
    exact henv

theorem ActStep.refStep {ok : Bool} (h : ActStep L s i a rest act s')
    (ht : s.tasks[i]? = some ⟨a, act :: rest⟩) (hf : s.node s.nextNode = none) :
    RefStep L s (.run i ok) s' := by
  have hlt : i < s.tasks.length := (List.getElem?_eq_some_iff.mp ht).1
  have same (hs : SameRefs s s') (ho : act.outer = none) : RefStep L s (.run i ok) s' := by
    refine .same hs ?_
    rintro act' ⟨_, _, _, _, hop, hact'⟩
    cases hop
    rw [ht] at hact'
    cases hact'
    exact ho
  cases h with
  | checksFail | checks | newNodeFail | translateBinderFail | translateBinder | translateHandleFail
  | translateHandle | incAlloc | releaseEnd | releaseSkip | freeBuf | updateNone | doneBad
  | clearMgr | clearNone | setDead | releaseNodesEnd | releaseRefsEnd => exact same (.of_tabs rfl) rfl
  | newNode h => exact same ((SameRefs.initNode h hf).upTo rfl) rfl
  | @translateOwn _ _ _ strong _ _ hN =>
    refine same (.onlyNode hN rfl ?_ ?_) rfl
    · rw [Node.inc_local]
      cases strong <;> rfl
    · rw [Node.inc_local]
      cases strong <;> rfl
  | incFound hact _ hr hinc hdone => exact .inc ht (.found hact hr) hinc (.incDone hdone)
  | incNoMem _ _ hdone => exact same (.incDone hdone) rfl
  | addRef _ hr hadd =>
    refine .add ht hr hadd (.of_tabs rfl) ?_
    obtain ⟨N, qs, -, -, rfl⟩ := addRef_eq hadd
    simp [RefState.setTask, RefState.setRef, RefState.setNode, hlt]
  | incNew hinc hdone => exact .inc ht .new hinc (.incDone hdone)
  | decNode h => exact same ((SameRefs.decNode h).upTo rfl) rfl
  | putNode h => exact same ((SameRefs.putNode h).upTo rfl) rfl
  | releaseBinder _ _ hN => exact same (.onlyNode hN rfl rfl rfl) rfl
  | @releaseHandle p _ os _ _ _ _ _ hr hdec =>
    refine .dec ht (.object hr) hdec (.of_tabs rfl) fun hlast => ⟨.releaseObjects p os :: rest, ?_⟩
    subst hlast
    exact List.getElem?_set_self (env_tasks (decRef_env hdec) ▸ hlt)
  | cleanupRef h => exact .remove ht .cleanup h (.of_tabs rfl)
  | updateInc _ hr hinc => exact .inc ht (.update hr rfl) hinc (.of_tabs rfl)
  | updateDec _ hr hdec =>
    refine .dec ht (.update hr) hdec (.of_tabs rfl) fun hlast => ⟨rest, ?_⟩
    subst hlast
    exact List.getElem?_set_self (env_tasks (decRef_env hdec) ▸ hlt)
  | @done n strong N free _ hN _ hdec =>
    -- the temporary reference of the command keeps the node; it stays allocated in any case
    obtain ⟨M, ns, hM, -, rfl, -⟩ := decNilocked_cases hdec
    obtain rfl : M = N.clearPending strong := by simpa [RefState.setNode] using hM.symm
    obtain ⟨w, hw, -⟩ := (N.clearPending strong).dec_eq strong false
    have hs : SameRefs s (s.setNode n ((N.clearPending strong).dec strong false).2) := by
      rw [hw]
      refine .setNode hN ?_ ?_
      · cases strong <;> rfl
      · cases strong <;> rfl
    refine same (hs.upTo ?_) rfl
    simp [RefState.tabs, RefState.setTask, RefState.addMsgs, RefState.setNode]
  | becomeMgr hN => exact same (.onlyNode hN rfl rfl rfl) rfl
  | dropWork hact hN =>
    refine same (.onlyNode hN rfl rfl rfl) ?_
    rcases hact with ⟨l, rfl⟩ | ⟨p, rfl⟩ <;> rfl
  | dropEnd hact =>
    refine same (.of_tabs rfl) ?_
    rcases hact with ⟨l, rfl⟩ | ⟨p, rfl⟩ <;> rfl
  | releaseNodes _ hN => exact same (.onlyNode hN rfl rfl rfl) rfl
  | nodeReleaseFree hN hr => exact same (.freeNode hN hr rfl) rfl
  | nodeRelease hN => exact same (.onlyNode hN rfl rfl rfl) rfl
  | releaseRefs _ hr h => exact .remove ht (.release hr) h (.of_tabs rfl)

theorem exec_refStep (h : s.exec L op = some s') (hf : s.node s.nextNode = none) :
    RefStep L s op s' := by
  have same {op : RefOp} {s' : RefState} (hs : SameRefs s s') (hop : ∀ i ok, op ≠ .run i ok) :
      RefStep L s op s' := by
    refine .same hs ?_
    rintro act ⟨i, ok, _, _, hrun, -⟩
    exact absurd hrun (hop i ok)
  cases exec_cases h with
  | reply | binderNew | send | freeBuffer | update | updateMgr | threadExit | close =>
    exact same (.of_tabs rfl) (by simp)
  | fails hop =>
    refine same (.of_tabs rfl) fun i ok he => ?_
    rcases hop with rfl | rfl | ⟨o, rfl⟩ <;> cases he
  | transaction _ _ hN | binderFound _ _ _ hN | handle _ _ _ _ _ hN | doneCommand _ _ hN
  | tell _ hN | nodeInfo _ _ _ _ hN | showNode _ hN =>
    exact same (.onlyNode hN rfl rfl rfl) (by simp)
  | tellFree _ hN _ _ hw =>
    exact same (.freeNode hN (Node.weak_eq_false.mp hw).1 rfl) (by simp)
  | setCtxMgr _ _ _ hn => exact same ((SameRefs.initNode hn hf).upTo rfl) (by simp)
  | run ht hact => exact hact.refStep ht hf

/-! ## Which task goes on -/

theorem IncDone.tasks {strong : Bool} {why : Why} {res : Option RefId}
    (h : IncDone s i a rest p n strong why res s') : ∃ acts, s'.tasks = s.tasks.set i ⟨a, acts⟩ := by
  cases h with
  | object | failed | command | again => exact ⟨_, rfl⟩

theorem ActStep.tasks (h : ActStep L s i a rest act s') :
    ∃ acts, s'.tasks = s.tasks.set i ⟨a, acts⟩ := by
  have env {s₁ : RefState} {acts : List Act} (h : s₁.env = s.env) :
      ∃ acts', (s₁.setTask i a acts).tasks = s.tasks.set i ⟨a, acts'⟩ :=
    ⟨acts, by rw [← env_tasks h]; rfl⟩
  cases h with
  | checksFail | checks | newNodeFail | translateBinderFail | translateBinder | translateHandleFail
  | translateOwn | translateHandle | incAlloc | releaseEnd | releaseSkip | releaseBinder | freeBuf
  | updateNone | doneBad | becomeMgr | dropWork | dropEnd | clearMgr | clearNone | setDead
  | releaseNodesEnd | releaseNodes | nodeReleaseFree | nodeRelease | releaseRefsEnd => exact ⟨_, rfl⟩
  | newNode h => exact env (initNode_env h)
  | incFound _ _ _ hinc hdone | incNew hinc hdone =>
    rw [← env_tasks (incRef_env hinc)]
    exact hdone.tasks
  | incNoMem _ _ hdone => exact hdone.tasks
  | addRef _ _ h => exact env (addRef_env h)
  | decNode h => exact env (decNode_env h)
  | putNode h => exact env (putNode_env h)
  | releaseHandle _ _ _ h | updateDec _ _ h => exact env (decRef_env h)
  | cleanupRef h | releaseRefs _ _ h => exact env (cleanupRef_env h)
  | updateInc _ _ h => exact env (incRef_env h)
  | @done _ _ _ _ s₁ _ _ h =>
    have htasks := env_tasks (decNilocked_env h)
    exact ⟨rest, congrArg (List.set · i _) htasks⟩

/-- A step appends to the tasks, or one task goes on. -/
theorem exec_tasks (h : s.exec L op = some s') : (∃ ts, s'.tasks = s.tasks ++ ts) ∨
    ∃ i a act rest acts, s.tasks[i]? = some ⟨a, act :: rest⟩ ∧ s'.tasks = s.tasks.set i ⟨a, acts⟩ ∧
      (Runs s op act ∨ ∃ x b target, act = .build x b target) := by
  cases exec_cases h with
  | transaction | reply | freeBuffer | update | updateMgr | doneCommand | nodeInfo | showNode
  | threadExit | close => exact .inl ⟨_, rfl⟩
  | setCtxMgr _ _ _ hn =>
    rw [← env_tasks (initNode_env hn)]
    exact .inl ⟨_, rfl⟩
  | tell | tellFree => exact .inl ⟨[], (List.append_nil _).symm⟩
  | binderFound ht | binderNew ht | handle ht | fails _ ht | send ht =>
    exact .inr ⟨_, _, _, _, _, ht, rfl, .inr ⟨_, _, _, rfl⟩⟩
  | run ht hact =>
    obtain ⟨acts, hacts⟩ := hact.tasks
    exact .inr ⟨_, _, _, _, acts, ht, hacts, .inl ⟨_, _, _, _, rfl, ht⟩⟩

/-! ## The invariant -/

/-- The tables agree. -/
structure Tables (s : RefState) : Prop where
  byDesc : ∀ p r, r ∈ s.refsByDesc p ↔ ∃ R, s.ref r = some R ∧ R.proc = p
  byNode : ∀ p r, r ∈ s.refsByNode p ↔ ∃ R, s.ref r = some R ∧ R.proc = p
  sorted : ∀ p, (s.refsByDesc p).Pairwise (s.descOf · < s.descOf ·)
  nodup : ∀ p, (s.refsByNode p).Nodup
  oneNode : ∀ r r' R R', s.ref r = some R → s.ref r' = some R' → R.proc = R'.proc →
    R.node = R'.node → r = r'
  onNode : ∀ r R, s.ref r = some R → ∃ N, s.node R.node = some N ∧ r ∈ N.refs
  ofNode : ∀ n N r, s.node n = some N → r ∈ N.refs → ∃ R, s.ref r = some R ∧ R.node = n
  refsNodup : ∀ n N, s.node n = some N → N.refs.Nodup
  refLt : ∀ r R, s.ref r = some R → r < s.nextRef
  nodeLt : ∀ n N, s.node n = some N → n < s.nextNode

theorem tables_start : Tables start := by
  constructor <;> simp [start]

namespace Tables

theorem fresh (h : Tables s) : s.node s.nextNode = none := by
  by_contra hn
  obtain ⟨N, hN⟩ := Option.ne_none_iff_exists'.mp hn
  exact lt_irrefl _ (h.nodeLt _ N hN)

theorem freshRef (h : Tables s) : s.ref s.nextRef = none := by
  by_contra hn
  obtain ⟨R, hR⟩ := Option.ne_none_iff_exists'.mp hn
  exact lt_irrefl _ (h.refLt _ R hR)

theorem descNodup (h : Tables s) (p : ProcId) : (s.refsByDesc p).Nodup := by
  refine List.Pairwise.imp ?_ (h.sorted p)
  rintro q q' hlt rfl
  exact lt_irrefl _ hlt

/-- A number is that of one reference of the process. -/
theorem oneDesc (h : Tables s) {r' : RefId} (hr : r ∈ s.refsByDesc p) (hr' : r' ∈ s.refsByDesc p)
    (hd : s.descOf r = s.descOf r') : r = r' := by
  have hsymm : Std.Symm fun q q' => s.descOf q ≠ s.descOf q' := ⟨fun _ _ h => h.symm⟩
  have hne := (h.sorted p).imp fun hlt => Nat.ne_of_lt hlt
  by_contra hqq
  exact hne.forall hr hr' hqq hd

theorem same (h : Tables s) (hs : SameRefs s s') : Tables s' := by
  have hdesc : s'.descOf = s.descOf := by
    funext r
    simp [RefState.descOf, hs.ref]
  constructor
  case byDesc =>
    rw [hs.byDesc, hs.ref]
    exact h.byDesc
  case byNode =>
    rw [hs.byNode, hs.ref]
    exact h.byNode
  case sorted =>
    rw [hs.byDesc, hdesc]
    exact h.sorted
  case nodup =>
    rw [hs.byNode]
    exact h.nodup
  case oneNode =>
    rw [hs.ref]
    exact h.oneNode
  case onNode =>
    rw [hs.ref]
    intro r R hR
    obtain ⟨N, hN, hr⟩ := h.onNode r R hR
    obtain ⟨N', hN', hrefs⟩ := hs.kept hN (List.ne_nil_of_mem hr)
    exact ⟨N', hN', hrefs ▸ hr⟩
  case ofNode =>
    rw [hs.ref]
    intro n N' r hN' hr
    rcases hs.node hN' with ⟨N, hN, hrefs, -⟩ | ⟨-, -, hrefs, -⟩
    · exact h.ofNode n N r hN (hrefs ▸ hr)
    · rw [hrefs] at hr
      cases hr
  case refsNodup =>
    intro n N' hN'
    rcases hs.node hN' with ⟨N, hN, hrefs, -⟩ | ⟨-, -, hrefs, -⟩
    · exact hrefs ▸ h.refsNodup n N hN
    · exact hrefs ▸ List.nodup_nil
  case refLt =>
    rw [hs.ref, hs.nextRef]
    exact h.refLt
  case nodeLt =>
    intro n N' hN'
    rcases hs.node hN' with ⟨N, hN, -⟩ | ⟨-, hlt, -⟩
    · exact lt_of_lt_of_le (h.nodeLt n N hN) hs.nextNode
    · exact hlt

/-- The counts of one reference change, and its node with them. -/
theorem turn (h : Tables s) (R' : Ref) (N' : Node) (hR : s.ref r = some R)
    (hN : s.node R.node = some N) (hp : R'.proc = R.proc) (hn : R'.node = R.node) (hd : R'.desc = R.desc)
    (hrefs : N'.refs = N.refs) : Tables ((s.setNode R.node N').setRef r R') := by
  obtain ⟨s', hs'⟩ : ∃ s', s' = (s.setNode R.node N').setRef r R' := ⟨_, rfl⟩
  rw [← hs']
  have href (q : RefId) : s'.ref q = if q = r then some R' else s.ref q := by
    simp [hs', RefState.setRef, RefState.setNode, Function.update_apply]
  have hnode (m : NodeId) : s'.node m = if m = R.node then some N' else s.node m := by
    simp [hs', RefState.setRef, RefState.setNode, Function.update_apply]
  have old {q : RefId} {Q' : Ref} (hq : s'.ref q = some Q') :
      ∃ Q, s.ref q = some Q ∧ Q.proc = Q'.proc ∧ Q.node = Q'.node := by
    rw [href] at hq
    split at hq
    · rename_i he
      cases hq
      exact ⟨R, he ▸ hR, hp.symm, hn.symm⟩
    · exact ⟨Q', hq, rfl, rfl⟩
  have new {q : RefId} {Q : Ref} (hq : s.ref q = some Q) :
      ∃ Q', s'.ref q = some Q' ∧ Q'.proc = Q.proc ∧ Q'.node = Q.node := by
    rw [href]
    split
    · rename_i he
      rw [he, hR] at hq
      cases hq
      exact ⟨R', rfl, hp, hn⟩
    · exact ⟨Q, hq, rfl, rfl⟩
  have oldNode {m : NodeId} {M' : Node} (hm : s'.node m = some M') :
      ∃ M, s.node m = some M ∧ M'.refs = M.refs := by
    rw [hnode] at hm
    split at hm
    · rename_i he
      cases hm
      exact ⟨N, he ▸ hN, hrefs⟩
    · exact ⟨M', hm, rfl⟩
  have hproc (p : ProcId) (q : RefId) :
      (∃ Q, s'.ref q = some Q ∧ Q.proc = p) ↔ ∃ Q, s.ref q = some Q ∧ Q.proc = p := by
    constructor
    · rintro ⟨Q', hq, rfl⟩
      obtain ⟨Q, hQ, hp, -⟩ := old hq
      exact ⟨Q, hQ, hp⟩
    · rintro ⟨Q, hq, rfl⟩
      obtain ⟨Q', hQ', hp, -⟩ := new hq
      exact ⟨Q', hQ', hp⟩
  have hdesc : s'.descOf = s.descOf := by
    funext q
    simp only [RefState.descOf, href]
    split
    · rename_i he
      simp [he, hR, hd]
    · rfl
  have htabs : s'.refsByDesc = s.refsByDesc ∧ s'.refsByNode = s.refsByNode := by
    rw [hs']
    exact ⟨rfl, rfl⟩
  constructor
  case byDesc =>
    intro p q
    rw [htabs.1, hproc]
    exact h.byDesc p q
  case byNode =>
    intro p q
    rw [htabs.2, hproc]
    exact h.byNode p q
  case sorted =>
    rw [htabs.1, hdesc]
    exact h.sorted
  case nodup =>
    rw [htabs.2]
    exact h.nodup
  case oneNode =>
    intro q q' Q Q' hq hq' hp hn
    obtain ⟨Q₀, hQ₀, hp₀, hn₀⟩ := old hq
    obtain ⟨Q₁, hQ₁, hp₁, hn₁⟩ := old hq'
    exact h.oneNode q q' Q₀ Q₁ hQ₀ hQ₁ (by rw [hp₀, hp, hp₁]) (by rw [hn₀, hn, hn₁])
  case onNode =>
    intro q Q hq
    obtain ⟨Q₀, hQ₀, -, hn₀⟩ := old hq
    obtain ⟨M, hM, hmem⟩ := h.onNode q Q₀ hQ₀
    rw [← hn₀, hnode]
    split
    · rename_i he
      rw [he, hN] at hM
      cases hM
      exact ⟨N', rfl, hrefs ▸ hmem⟩
    · exact ⟨M, hM, hmem⟩
  case ofNode =>
    intro m M' q hM' hq
    obtain ⟨M, hM, hMrefs⟩ := oldNode hM'
    obtain ⟨Q, hQ, hQn⟩ := h.ofNode m M q hM (hMrefs ▸ hq)
    obtain ⟨Q', hQ', -, hn'⟩ := new hQ
    exact ⟨Q', hQ', hn'.trans hQn⟩
  case refsNodup =>
    intro m M' hM'
    obtain ⟨M, hM, hMrefs⟩ := oldNode hM'
    exact hMrefs ▸ h.refsNodup m M hM
  case refLt =>
    intro q Q hq
    obtain ⟨Q₀, hQ₀, -⟩ := old hq
    rw [hs']
    exact h.refLt q Q₀ hQ₀
  case nodeLt =>
    intro m M' hM'
    obtain ⟨M, hM, -⟩ := oldNode hM'
    rw [hs']
    exact h.nodeLt m M hM

theorem incRef {strong ok : Bool} {list : Option ThreadId} (h : Tables s)
    (hi : s.incRef L r strong list = some (ok, s')) : Tables s' := by
  obtain ⟨R, hR, ⟨-, -, rfl⟩ | ⟨-, -, rfl⟩ | ⟨-, -, N, hN, hok, rfl⟩⟩ := incRef_cases hi
  · exact h
  · obtain ⟨N, hN, -⟩ := h.onNode r R hR
    have := h.turn (R.setCount strong (R.count strong + 1)) N hR hN (by simp) (by simp) (by simp) rfl
    simpa [RefState.setNode, ← hN] using this
  · obtain ⟨w, hw, -⟩ := Node.inc_succeeds hok
    refine h.turn _ _ hR hN (by simp) (by simp) (by simp) ?_
    rw [hw]
    cases strong <;> rfl

theorem decRef {strong last : Bool} (h : Tables s)
    (hd : s.decRef r strong = some (last, s')) : Tables s' := by
  obtain ⟨R, hR, ⟨-, rfl, -⟩ | ⟨-, -, -, rfl⟩ | ⟨-, -, rfl, N, hN, rfl⟩⟩ :=
    decRef_cases hd fun R hR => h.onNode r R hR
  · exact h
  · obtain ⟨N, hN, -⟩ := h.onNode r R hR
    have := h.turn (R.setCount strong (R.count strong - 1)) N hR hN (by simp) (by simp) (by simp) rfl
    simpa [RefState.setNode, ← hN] using this
  · obtain ⟨w, hw, -⟩ := N.dec_eq true true
    refine h.turn _ _ hR hN (by simp) (by simp) (by simp) ?_
    rw [hw]
    rfl

/-- The reference `r` goes: the node that loses it is freed or gets the fields of `N'`. -/
theorem dropRef {o : Option Node} (h : Tables s) (hR : s.ref r = some R)
    (hN : s.node R.node = some N)
    (hs : s'.tabs = ({ s.dropRef r R with node := Function.update s.node R.node o }).tabs)
    (ho : ∀ N', o = some N' → N'.refs = N.refs.erase r)
    (hnone : o = none → N.refs.erase r = []) : Tables s' := by
  simp only [RefState.tabs, RefState.dropRef, Prod.mk.injEq] at hs
  obtain ⟨hnode, href, hbyDesc, hbyNode, hnr, hnn⟩ := hs
  obtain ⟨M, hM, hmem⟩ := h.onNode r R hR
  obtain rfl : M = N := Option.some.inj (hM.symm.trans hN)
  have hnodup := h.refsNodup _ M hN
  have href (q : RefId) : s'.ref q = if q = r then none else s.ref q := by
    rw [href, Function.update_apply]
  have hnode (m : NodeId) : s'.node m = if m = R.node then o else s.node m := by
    rw [hnode, Function.update_apply]
  have old {q : RefId} {Q : Ref} (hq : s'.ref q = some Q) : q ≠ r ∧ s.ref q = some Q := by
    rw [href] at hq
    split at hq
    · cases hq
    · exact ⟨‹_›, hq⟩
  have oldNode {m : NodeId} {M' : Node} (hm : s'.node m = some M') :
      (m = R.node ∧ o = some M') ∨ (m ≠ R.node ∧ s.node m = some M') := by
    rw [hnode] at hm
    split at hm
    · exact .inl ⟨‹_›, hm⟩
    · exact .inr ⟨‹_›, hm⟩
  have hproc (p : ProcId) (q : RefId) :
      (∃ Q, s'.ref q = some Q ∧ Q.proc = p) ↔ q ≠ r ∧ ∃ Q, s.ref q = some Q ∧ Q.proc = p := by
    rw [href]
    by_cases hq : q = r <;> simp [hq]
  have herase {tab : ProcId → List RefId} (hnd : ∀ p, (tab p).Nodup)
      (ht : ∀ p q, q ∈ tab p ↔ ∃ Q, s.ref q = some Q ∧ Q.proc = p) (p : ProcId) (q : RefId) :
      q ∈ Function.update tab R.proc ((tab R.proc).erase r) p ↔
        ∃ Q, s'.ref q = some Q ∧ Q.proc = p := by
    rw [hproc, Function.update_apply]
    split
    · rename_i he
      rw [he, (hnd _).mem_erase_iff, ht]
    · rename_i hne
      rw [ht]
      refine ⟨fun hq => ⟨?_, hq⟩, fun hq => hq.2⟩
      rintro rfl
      obtain ⟨Q, hQ, hQp⟩ := hq
      rw [hR] at hQ
      cases hQ
      exact hne hQp.symm
  have hsub {tab : ProcId → List RefId} (p : ProcId) :
      (Function.update tab R.proc ((tab R.proc).erase r) p).Sublist (tab p) := by
    rw [Function.update_apply]
    split
    · rename_i he
      rw [he]
      exact List.erase_sublist
    · exact List.Sublist.refl _
  constructor
  case byDesc =>
    rw [hbyDesc]
    exact herase h.descNodup h.byDesc
  case byNode =>
    rw [hbyNode]
    exact herase h.nodup h.byNode
  case sorted =>
    intro p
    have hp := (h.sorted p).sublist (hsub p)
    rw [hbyDesc]
    refine hp.imp_of_mem fun {q q'} hq hq' hlt => ?_
    obtain ⟨Q, hQ, -⟩ := (herase h.descNodup h.byDesc p q).mp hq
    obtain ⟨Q', hQ', -⟩ := (herase h.descNodup h.byDesc p q').mp hq'
    simp only [RefState.descOf, hQ, hQ', (old hQ).2, (old hQ').2] at hlt ⊢
    exact hlt
  case nodup =>
    intro p
    rw [hbyNode]
    exact (h.nodup p).sublist (hsub p)
  case oneNode =>
    intro q q' Q Q' hq hq'
    exact h.oneNode q q' Q Q' (old hq).2 (old hq').2
  case onNode =>
    intro q Q hq
    obtain ⟨hne, hq⟩ := old hq
    obtain ⟨K, hK, hqK⟩ := h.onNode q Q hq
    rw [hnode]
    split
    · rename_i he
      rw [he, hN] at hK
      cases hK
      have hq' : q ∈ M.refs.erase r := (hnodup.mem_erase_iff).mpr ⟨hne, hqK⟩
      cases o with
      | none =>
        rw [hnone rfl] at hq'
        cases hq'
      | some N' => exact ⟨N', rfl, ho N' rfl ▸ hq'⟩
    · exact ⟨K, hK, hqK⟩
  case ofNode =>
    intro m M' q hm hq
    rcases oldNode hm with ⟨rfl, ho'⟩ | ⟨hne, hm⟩
    · rw [ho M' ho', hnodup.mem_erase_iff] at hq
      obtain ⟨Q, hQ, hQn⟩ := h.ofNode _ M q hN hq.2
      exact ⟨Q, by rw [href, if_neg hq.1, hQ], hQn⟩
    · obtain ⟨Q, hQ, hQn⟩ := h.ofNode m M' q hm hq
      refine ⟨Q, ?_, hQn⟩
      rw [href, if_neg, hQ]
      rintro rfl
      rw [hR] at hQ
      cases hQ
      exact hne hQn.symm
  case refsNodup =>
    intro m M' hm
    rcases oldNode hm with ⟨rfl, ho'⟩ | ⟨-, hm⟩
    · rw [ho M' ho']
      exact hnodup.sublist List.erase_sublist
    · exact h.refsNodup m M' hm
  case refLt =>
    intro q Q hq
    rw [hnr]
    exact h.refLt q Q (old hq).2
  case nodeLt =>
    intro m M' hm
    rw [hnn]
    rcases oldNode hm with ⟨rfl, -⟩ | ⟨-, hm⟩
    · exact h.nodeLt _ M hN
    · exact h.nodeLt m M' hm

theorem cleanupRef (h : Tables s) (hc : s.cleanupRef r = some s') : Tables s' := by
  obtain ⟨R, N, w, hR, hN, -, ⟨-, rfl⟩ | ⟨hf, rfl⟩⟩ :=
    cleanupRef_cases hc fun R hR => h.onNode r R hR
  · obtain ⟨w', hw', -⟩ := (N.unref r (R.strong != 0) w).dec_eq false true
    refine h.dropRef hR hN rfl ?_ (fun h => by cases h)
    rintro N' hN'
    cases hN'
    rw [hw']
    simp [Node.drop, Node.unref]
  · refine h.dropRef (o := none) hR hN rfl (fun _ h => by cases h) fun _ => ?_
    have := (Node.unused_iff.mp (Node.dec_free hf).1).1
    simpa [Node.unref] using this

/-- Where the walk down `refs_by_desc` puts a new reference. -/
theorem insertDesc_eq {d : Nat} {xs qs : List RefId}
    (hs : xs.Pairwise (s.descOf · < s.descOf ·)) (h : s.insertDesc r d xs = some qs) :
    ∃ as bs, xs = as ++ bs ∧ qs = as ++ r :: bs ∧ (∀ q ∈ as, s.descOf q < d) ∧
      ∀ q ∈ bs, d < s.descOf q := by
  induction xs generalizing qs with
  | nil =>
    cases h
    exact ⟨[], [], rfl, rfl, by simp, by simp⟩
  | cons x xs ih =>
    obtain ⟨hx, hs⟩ := List.pairwise_cons.mp hs
    simp only [RefState.insertDesc] at h
    split at h
    · rename_i hlt
      cases h
      refine ⟨[], x :: xs, rfl, rfl, by simp, fun q hq => ?_⟩
      rcases List.mem_cons.mp hq with rfl | hq
      · exact hlt
      · exact hlt.trans (hx q hq)
    · split at h
      · rename_i hlt
        obtain ⟨qs', hqs', rfl⟩ := Option.map_eq_some_iff.mp h
        obtain ⟨as, bs, rfl, rfl, has, hbs⟩ := ih hs hqs'
        refine ⟨x :: as, bs, rfl, rfl, fun q hq => ?_, hbs⟩
        rcases List.mem_cons.mp hq with rfl | hq
        · exact hlt
        · exact has q hq
      · cases h

theorem addRef (h : Tables s) (hnone : s.getRefForNode p n = none)
    (ha : s.addRef L p n = some s') : Tables s' := by
  obtain ⟨N, qs, hN, hqs, hs'⟩ := addRef_eq ha
  generalize s.nextDesc L p n = d at hqs hs'
  obtain ⟨as, bs, habs, rfl, has, hbs⟩ := insertDesc_eq (h.sorted p) hqs
  have hfresh := h.freshRef
  obtain ⟨r, hr⟩ : ∃ r, r = s.nextRef := ⟨_, rfl⟩
  rw [← hr] at hs' hfresh hqs
  have href (q : RefId) : s'.ref q = if q = r then some ⟨p, d, n, 0, 0⟩ else s.ref q := by
    simp [hs', RefState.setRef, RefState.setNode, Function.update_apply]
  have hnode (m : NodeId) :
      s'.node m = if m = n then some { N with refs := r :: N.refs } else s.node m := by
    simp [hs', RefState.setRef, RefState.setNode, Function.update_apply]
  have hbyDesc (q : ProcId) : s'.refsByDesc q = if q = p then as ++ r :: bs else s.refsByDesc q := by
    simp [hs', Function.update_apply]
  have hbyNode (q : ProcId) :
      s'.refsByNode q = if q = p then r :: s.refsByNode p else s.refsByNode q := by
    simp [hs', Function.update_apply]
  have hne {q : RefId} {Q : Ref} (hq : s.ref q = some Q) : q ≠ r := by
    rintro rfl
    rw [hfresh] at hq
    cases hq
  have hdesc {q : RefId} (hq : q ≠ r) : s'.descOf q = s.descOf q := by
    simp [RefState.descOf, href, hq]
  have hdr : s'.descOf r = d := by simp [RefState.descOf, href]
  -- no reference of `p` to `n` is there
  have hno {q : RefId} {Q : Ref} (hq : s.ref q = some Q) (hp : Q.proc = p) : Q.node ≠ n := by
    intro hn
    have := List.find?_eq_none.mp hnone q ((h.byNode p q).mpr ⟨Q, hq, hp⟩)
    simp [hq, hn] at this
  constructor
  case byDesc =>
    intro p' q
    rw [hbyDesc, href]
    split
    · rename_i hp
      subst hp
      have hmem : q ∈ as ++ r :: bs ↔ q = r ∨ q ∈ s.refsByDesc p' := by
        rw [habs]
        simp only [List.mem_append, List.mem_cons]
        tauto
      rw [hmem]
      split
      · simp [*]
      · simp only [‹q ≠ r›, false_or]
        exact h.byDesc p' q
    · rename_i hp
      rw [h.byDesc]
      split
      · rename_i hq
        subst hq
        simp [hfresh, Ne.symm hp]
      · rfl
  case byNode =>
    intro p' q
    rw [hbyNode, href]
    split
    · rename_i hp
      subst hp
      rw [List.mem_cons]
      split
      · simp [*]
      · simp only [‹q ≠ r›, false_or]
        exact h.byNode p' q
    · rename_i hp
      rw [h.byNode]
      split
      · rename_i hq
        subst hq
        simp [hfresh, Ne.symm hp]
      · rfl
  case sorted =>
    intro p'
    have hold {q : RefId} {p'' : ProcId} (hq : q ∈ s.refsByDesc p'') : q ≠ r := by
      obtain ⟨Q, hQ, -⟩ := (h.byDesc p'' q).mp hq
      exact hne hQ
    have hsame (p'' : ProcId) : (s.refsByDesc p'').Pairwise (s'.descOf · < s'.descOf ·) :=
      (h.sorted p'').imp_of_mem fun hq hq' hlt => by rwa [hdesc (hold hq), hdesc (hold hq')]
    rw [hbyDesc]
    split
    · have hp := hsame p
      rw [habs, List.pairwise_append] at hp
      obtain ⟨hpa, hpb, hab⟩ := hp
      refine List.pairwise_append.mpr ⟨hpa, List.pairwise_cons.mpr ⟨fun q hq => ?_, hpb⟩, ?_⟩
      · rw [hdr, hdesc (hold (show _ ∈ s.refsByDesc p by rw [habs]; simp [hq]))]
        exact hbs q hq
      · intro q hq q' hq'
        rcases List.mem_cons.mp hq' with rfl | hq'
        · rw [hdr, hdesc (hold (show _ ∈ s.refsByDesc p by rw [habs]; simp [hq]))]
          exact has q hq
        · exact hab q hq q' hq'
    · exact hsame p'
  case nodup =>
    intro p'
    rw [hbyNode]
    split
    · refine List.nodup_cons.mpr ⟨fun hmem => ?_, h.nodup p⟩
      obtain ⟨Q, hQ, -⟩ := (h.byNode p r).mp hmem
      exact hne hQ rfl
    · exact h.nodup p'
  case oneNode =>
    intro q q' Q Q' hq hq' hp hn
    rw [href] at hq hq'
    split at hq
    · rename_i he
      cases hq
      split at hq'
      · rename_i he'
        rw [he, he']
      · exact absurd hn.symm (hno hq' hp.symm)
    · split at hq'
      · cases hq'
        exact absurd hn (hno hq hp)
      · exact h.oneNode q q' Q Q' hq hq' hp hn
  case onNode =>
    intro q Q hq
    rw [href] at hq
    split at hq
    · rename_i he
      cases hq
      exact ⟨_, by rw [hnode, if_pos rfl], by simp [he]⟩
    · obtain ⟨M, hM, hmem⟩ := h.onNode q Q hq
      rw [hnode]
      split
      · rename_i he
        rw [he, hN] at hM
        cases hM
        exact ⟨_, rfl, List.mem_cons_of_mem _ hmem⟩
      · exact ⟨M, hM, hmem⟩
  case ofNode =>
    intro m M q hm hq
    have hold {K : Node} (hK : s.node m = some K) (hqK : q ∈ K.refs) :
        ∃ Q, s'.ref q = some Q ∧ Q.node = m := by
      obtain ⟨Q, hQ, hQn⟩ := h.ofNode m K q hK hqK
      exact ⟨Q, by rw [href, if_neg (hne hQ), hQ], hQn⟩
    rw [hnode] at hm
    split at hm
    · rename_i he
      cases hm
      rcases List.mem_cons.mp hq with rfl | hq
      · exact ⟨_, by rw [href, if_pos rfl], he.symm⟩
      · exact hold (he ▸ hN) hq
    · exact hold hm hq
  case refsNodup =>
    intro m M hm
    rw [hnode] at hm
    split at hm
    · cases hm
      refine List.nodup_cons.mpr ⟨fun hmem => ?_, h.refsNodup n N hN⟩
      obtain ⟨Q, hQ, -⟩ := h.ofNode n N r hN hmem
      exact hne hQ rfl
    · exact h.refsNodup m M hm
  case refLt =>
    intro q Q hq
    have hnext : s'.nextRef = r + 1 := by rw [hs']
    rw [hnext]
    rw [href] at hq
    split at hq
    · rename_i he
      rw [he]
      exact Nat.lt_succ_self r
    · rw [hr]
      exact Nat.lt_succ_of_lt (h.refLt q Q hq)
  case nodeLt =>
    intro m M hm
    have hnext : s'.nextNode = s.nextNode := by rw [hs']; rfl
    rw [hnext]
    rw [hnode] at hm
    split at hm
    · rename_i he
      exact he ▸ h.nodeLt n N hN
    · exact h.nodeLt m M hm

theorem refStep (h : Tables s) (hs : RefStep L s op s') : Tables s' := by
  cases hs with
  | same hs _ => exact h.same hs
  | inc _ _ hinc hs => exact (h.incRef hinc).same hs
  | dec _ _ hdec hs _ => exact (h.decRef hdec).same hs
  | add _ hnone hadd hs _ => exact (h.addRef hnone hadd).same hs
  | remove _ _ hrem hs => exact (h.cleanupRef hrem).same hs

theorem exec (h : Tables s) (he : s.exec L op = some s') : Tables s' :=
  h.refStep (exec_refStep he h.fresh)

end Tables

/-- What a step does to a reference: it is an old one, with the same number, or it is new and has the
next number. -/
theorem RefStep.refs (h : RefStep L s op s') (ht : Tables s) (hR' : s'.ref r = some R') :
    (∃ R, s.ref r = some R ∧ R'.proc = R.proc ∧ R'.desc = R.desc ∧ R'.node = R.node) ∨
      (r = s.nextRef ∧ R'.desc = s.nextDesc L R'.proc R'.node ∧
        (s'.refsByDesc R'.proc).length = (s.refsByDesc R'.proc).length + 1) := by
  have set {k : RefId} {K K₁ : Ref} {f : RefId → Option Ref} (hf : s'.ref = f) (hK : s.ref k = some K)
      (hu : f = Function.update s.ref k (some K₁)) (hp : K₁.proc = K.proc) (hd : K₁.desc = K.desc)
      (hn : K₁.node = K.node) :
      ∃ R, s.ref r = some R ∧ R'.proc = R.proc ∧ R'.desc = R.desc ∧ R'.node = R.node := by
    rw [hf, hu, Function.update_apply] at hR'
    split at hR'
    · rename_i hk
      cases hR'
      exact ⟨K, by rw [hk, hK], hp, hd, hn⟩
    · exact ⟨R', hR', rfl, rfl, rfl⟩
  cases h with
  | same hs => exact .inl ⟨R', by rwa [← hs.ref], rfl, rfl, rfl⟩
  | inc _ _ hi hs =>
    obtain ⟨R, hR, ⟨-, -, rfl⟩ | ⟨-, -, rfl⟩ | ⟨-, -, N, hN, hok, rfl⟩⟩ := incRef_cases hi
    · exact .inl ⟨R', by rwa [← hs.ref], rfl, rfl, rfl⟩
    · exact .inl (set hs.ref hR rfl (by simp) (by simp) (by simp))
    · exact .inl (set hs.ref hR rfl (by simp) (by simp) (by simp))
  | dec _ _ hd hs =>
    obtain ⟨R, hR, ⟨-, rfl, -⟩ | ⟨-, -, -, rfl⟩ | ⟨-, -, -, N, hN, rfl⟩⟩ :=
      decRef_cases hd fun R hR => ht.onNode _ R hR
    · exact .inl ⟨R', by rwa [← hs.ref], rfl, rfl, rfl⟩
    · exact .inl (set hs.ref hR rfl (by simp) (by simp) (by simp))
    · exact .inl (set hs.ref hR rfl (by simp) (by simp) (by simp))
  | add _ _ ha hs =>
    obtain ⟨N, qs, -, hins, rfl⟩ := addRef_eq ha
    rw [hs.ref] at hR'
    simp only [RefState.setRef, RefState.setNode, Function.update_apply] at hR'
    split at hR'
    · rename_i hk
      cases hR'
      obtain ⟨as, bs, has, rfl, -, -⟩ := Tables.insertDesc_eq (ht.sorted _) hins
      refine .inr ⟨hk, rfl, ?_⟩
      rw [hs.byDesc]
      simp [has, Nat.add_assoc]
    · exact .inl ⟨R', hR', rfl, rfl, rfl⟩
  | remove _ _ hc hs =>
    obtain ⟨R, N, w, -, -, -, ⟨-, rfl⟩ | ⟨-, rfl⟩⟩ := cleanupRef_cases hc fun R hR => ht.onNode _ R hR
    all_goals
      rw [hs.ref] at hR'
      simp only [RefState.dropRef, RefState.setNode, RefState.freeNode, Function.update_apply] at hR'
      split at hR'
      · cases hR'
      · exact .inl ⟨R', hR', rfl, rfl, rfl⟩

/-- The ids only grow. -/
theorem RefStep.next (h : RefStep L s op s') (ht : Tables s) :
    s.nextNode ≤ s'.nextNode ∧ s.nextRef ≤ s'.nextRef := by
  cases h with
  | same hs => exact ⟨hs.nextNode, hs.nextRef.ge⟩
  | inc _ _ hi hs =>
    obtain ⟨R, -, ⟨-, -, rfl⟩ | ⟨-, -, rfl⟩ | ⟨-, -, N, -, -, rfl⟩⟩ := incRef_cases hi <;>
      exact ⟨hs.nextNode, hs.nextRef.ge⟩
  | dec _ _ hd hs =>
    obtain ⟨R, -, ⟨-, rfl, -⟩ | ⟨-, -, -, rfl⟩ | ⟨-, -, -, N, -, rfl⟩⟩ :=
      decRef_cases hd fun R hR => ht.onNode _ R hR
    all_goals exact ⟨hs.nextNode, hs.nextRef.ge⟩
  | add _ _ ha hs =>
    obtain ⟨N, qs, -, -, rfl⟩ := addRef_eq ha
    exact ⟨hs.nextNode, (Nat.le_succ _).trans hs.nextRef.ge⟩
  | remove _ _ hc hs =>
    obtain ⟨R, N, w, -, -, -, ⟨-, rfl⟩ | ⟨-, rfl⟩⟩ := cleanupRef_cases hc fun R hR => ht.onNode _ R hR
    all_goals exact ⟨hs.nextNode, hs.nextRef.ge⟩

theorem tables_of_reach (h : (refSys L).Reach s) : Tables s :=
  h.inv (fun _ h0 => by cases h0; exact tables_start) fun _ _ _ hi hst => hi.exec hst

/-- One thread in each process, and one context. -/
def oneThread : Layout := ⟨id, fun _ => 0⟩

/-- The process 0 becomes the context manager, and the process 1 takes a strong reference to it. -/
def acquireMgr : List RefOp :=
  [.setCtxMgr 0 8 8, .run 0 true, .run 0 true, .refCommand 1 0 true true, .run 1 true, .run 1 true,
    .run 1 true]

/-- The state after these. -/
def afterAcquire : RefState :=
  (Sys.execIf (RefState.exec oneThread) (fun _ _ => True) start acquireMgr).get (by decide)

end Redroid.Binder.Refs
