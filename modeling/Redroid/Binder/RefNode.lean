import Redroid.Binder.RefCases

/-!
# The counters of a node

What `Node.inc`, `Node.dec` and `Node.tell` do to the fields, and what the state operations on one
node do. Later modules use these and do not unfold the operations.

* `Node.dec_eq`, `Node.dec_free`: the counter goes down by one, and the node is freed only if nothing
  but `internal_strong_refs` can keep it.
* `decNode_cases`, `putNode_cases`, `initNode_cases`: the state after them; `RefState.env`: what they
  leave as it is.
-/

namespace Redroid.Binder.Refs

namespace Node

variable {N : Node} {strong internal mgr : Bool} {list : Option ThreadId}

/-- The counter that `binder_inc_node_nilocked` increments. -/
def bump (N : Node) (strong internal : Bool) : Node :=
  if strong then
    if internal then { N with internalStrongRefs := N.internalStrongRefs + 1 }
    else { N with localStrongRefs := N.localStrongRefs + 1 }
  else if internal then N
  else { N with localWeakRefs := N.localWeakRefs + 1 }

/-- A local increment without a list. -/
theorem inc_local : (N.inc strong false none mgr).2 = N.bump strong false := by
  cases strong with
  | true => rfl
  | false =>
    show (if !N.hasWeakRef && N.work.isNone then (false, N.bump false false)
      else (true, N.bump false false)).2 = _
    split <;> rfl

theorem inc_strong : N.inc true true list mgr =
    if list.isNone && N.internalStrongRefs == 0 && !(N.proc.isSome && mgr && N.hasStrongRef) then
      (false, N)
    else match list with
      | some x => (true, if N.hasStrongRef then N.bump true true
          else { N.bump true true with work := some (.thread x) })
      | none => (true, N.bump true true) := rfl

theorem inc_weak : N.inc false true list mgr =
    if !N.hasWeakRef && N.work.isNone then match list with
      | some x => (true, { N with work := some (.thread x) })
      | none => (false, N)
    else (true, N) := rfl

/-- A failed internal increment changes nothing. -/
theorem inc_failed (h : (N.inc strong true list mgr).1 = false) :
    (N.inc strong true list mgr).2 = N := by
  cases strong with
  | true =>
    rw [inc_strong] at h ⊢
    split
    · rfl
    · rename_i hc
      rw [if_neg hc] at h
      cases list <;> cases h
  | false =>
    rw [inc_weak] at h ⊢
    split
    · cases list with
      | none => rfl
      | some x =>
        rename_i hc
        rw [if_pos hc] at h
        cases h
    · rfl

/-- An internal increment that succeeds: the counter, and the work list. -/
theorem inc_succeeds (h : (N.inc strong true list mgr).1 = true) :
    ∃ w, (N.inc strong true list mgr).2 = { N.bump strong true with work := w } ∧
      (w = N.work ∨ ∃ x, list = some x ∧ w = some (.thread x)) := by
  cases strong with
  | true =>
    rw [inc_strong] at h ⊢
    split
    · rename_i hc
      rw [if_pos hc] at h
      cases h
    · cases list with
      | none => exact ⟨N.work, rfl, .inl rfl⟩
      | some x =>
        simp only
        split
        · exact ⟨N.work, rfl, .inl rfl⟩
        · exact ⟨_, rfl, .inr ⟨x, rfl, rfl⟩⟩
  | false =>
    rw [inc_weak] at h ⊢
    split
    · cases list with
      | none =>
        rename_i hc
        rw [if_pos hc] at h
        cases h
      | some x => exact ⟨_, rfl, .inr ⟨x, rfl, rfl⟩⟩
    · exact ⟨N.work, rfl, .inl rfl⟩

/-- `binder_dec_node_nilocked`: the counter, and the work list. -/
theorem dec_eq (N : Node) (strong internal : Bool) :
    ∃ w, (N.dec strong internal).2 = { N.drop strong internal with work := w } ∧
    (w = N.work ∨ ((N.dec strong internal).1 = true ∧ w = none) ∨
      ∃ p, N.proc = some p ∧ w = some (.proc p)) := by
  have hw : (N.drop strong internal).work = N.work ∧ (N.drop strong internal).proc = N.proc := by
    unfold drop
    split
    · split <;> exact ⟨rfl, rfl⟩
    · split <;> exact ⟨rfl, rfl⟩
  obtain ⟨M, hM⟩ : ∃ M, M = N.drop strong internal := ⟨_, rfl⟩
  simp only [dec, ← hM] at hw ⊢
  split
  · exact ⟨N.work, by rw [← hw.1], .inl rfl⟩
  · split
    · rename_i p hp
      split
      · split
        · exact ⟨_, rfl, .inr (.inr ⟨p, hw.2 ▸ hp, rfl⟩)⟩
        · exact ⟨N.work, by rw [← hw.1], .inl rfl⟩
      · split
        · exact ⟨_, rfl, .inr (.inl ⟨rfl, rfl⟩)⟩
        · exact ⟨N.work, by rw [← hw.1], .inl rfl⟩
    · exact ⟨N.work, by rw [← hw.1], .inl rfl⟩

/-- When `binder_dec_node_nilocked` frees a node. -/
theorem dec_free (h : (N.dec strong internal).1 = true) :
    (N.drop strong internal).unused = true ∧ (N.drop strong internal).held strong = false ∧
      (N.proc.isSome = true → N.hasStrongRef = false ∧ N.hasWeakRef = false) := by
  have hf : (N.drop strong internal).proc = N.proc ∧
      (N.drop strong internal).hasStrongRef = N.hasStrongRef ∧
      (N.drop strong internal).hasWeakRef = N.hasWeakRef := by
    unfold drop
    split
    · split <;> exact ⟨rfl, rfl, rfl⟩
    · split <;> exact ⟨rfl, rfl, rfl⟩
  obtain ⟨hp, hs, hw⟩ := hf
  simp only [dec] at h
  split at h
  · cases h
  rename_i hh
  rw [Bool.not_eq_true] at hh
  split at h
  · split at h
    · cases h
    rename_i hflags
    rw [hs, hw, Bool.or_eq_true, not_or, Bool.not_eq_true, Bool.not_eq_true] at hflags
    split at h
    · exact ⟨‹_›, hh, fun _ => hflags⟩
    · cases h
  · rename_i hn
    refine ⟨h, hh, fun hsome => ?_⟩
    rw [← hp, hn] at hsome
    cases hsome

theorem unused_iff : N.unused = true ↔ N.refs = [] ∧ N.localStrongRefs = 0 ∧ N.localWeakRefs = 0 ∧
    N.tmpRefs = 0 := by
  simp [unused, and_assoc]

@[simp] theorem drop_refs : (N.drop strong internal).refs = N.refs := by
  unfold drop
  split
  · split <;> rfl
  · split <;> rfl

@[simp] theorem drop_proc : (N.drop strong internal).proc = N.proc := by
  unfold drop
  split
  · split <;> rfl
  · split <;> rfl

@[simp] theorem drop_tmpRefs : (N.drop strong internal).tmpRefs = N.tmpRefs := by
  unfold drop
  split
  · split <;> rfl
  · split <;> rfl

theorem drop_internal : (N.drop strong internal).internalStrongRefs =
    N.internalStrongRefs - if strong && internal then 1 else 0 := by
  unfold drop
  cases strong <;> cases internal <;> simp

theorem drop_localStrong : (N.drop strong internal).localStrongRefs =
    N.localStrongRefs - if strong && !internal then 1 else 0 := by
  unfold drop
  cases strong <;> cases internal <;> simp

theorem drop_localWeak : (N.drop strong internal).localWeakRefs =
    N.localWeakRefs - if !strong && !internal then 1 else 0 := by
  unfold drop
  cases strong <;> cases internal <;> simp

theorem weak_of_strong (h : N.strong = true) : N.weak = true := by simp [weak, h]

theorem weak_eq_false : N.weak = false ↔ N.refs = [] ∧ N.localWeakRefs = 0 ∧ N.tmpRefs = 0 ∧
    N.internalStrongRefs = 0 ∧ N.localStrongRefs = 0 := by
  simp [weak, strong, and_assoc]

end Node

open RefState

variable {L : Layout} {s s' : RefState} {n : NodeId} {N : Node} {strong internal : Bool}
  {p : ProcId}

/-- `binder_dec_node_nilocked`: the node stays, or it is taken off its process. -/
theorem decNilocked_cases {free : Bool} (h : s.decNilocked n strong internal = some (free, s')) :
    ∃ N ns, s.node n = some N ∧ (N.dec strong internal).1 = free ∧
      s' = { s.setNode n (N.dec strong internal).2 with nodes := ns } ∧
      (free = false → ns = s.nodes) := by
  simp only [RefState.decNilocked, bind, Option.bind_eq_some_iff, Option.guard_eq_some',
    exists_const] at h
  obtain ⟨N, hN, -, h⟩ := h
  split at h
  · rename_i hf
    cases h
    exact ⟨N, _, hN, hf, rfl, fun h => by cases h⟩
  · rename_i hf
    cases h
    exact ⟨N, s.nodes, hN, by simpa using hf, rfl, fun _ => rfl⟩

/-- `binder_dec_node`: the node stays, or it is freed. -/
theorem decNode_cases (h : s.decNode n strong internal = some s') : ∃ N, s.node n = some N ∧
    (((N.dec strong internal).1 = false ∧ s' = s.setNode n (N.dec strong internal).2) ∨
      ((N.dec strong internal).1 = true ∧ s' = s.freeNode n N.proc)) := by
  simp only [RefState.decNode, RefState.decNilocked, bind, Option.bind_eq_some_iff,
    Option.guard_eq_some', exists_const] at h
  obtain ⟨⟨free, s₁⟩, ⟨N, hN, -, hs₁⟩, h⟩ := h
  refine ⟨N, hN, ?_⟩
  split at hs₁
  · rename_i hf
    cases hs₁
    cases h
    refine .inr ⟨hf, ?_⟩
    simp [RefState.freeNode, RefState.setNode]
  · rename_i hf
    cases hs₁
    cases h
    exact .inl ⟨by simpa using hf, rfl⟩

/-- The node without the temporary reference that `binder_put_node` drops. -/
def Node.put (N : Node) : Node := { N with tmpRefs := N.tmpRefs - 1 }

theorem putNode_cases (h : s.putNode n = some s') : ∃ N, s.node n = some N ∧ 0 < N.tmpRefs ∧
    ((((N.put).dec false true).1 = false ∧ s' = s.setNode n ((N.put).dec false true).2) ∨
      (((N.put).dec false true).1 = true ∧ s' = s.freeNode n N.proc)) := by
  simp only [RefState.putNode, bind, Option.bind_eq_some_iff, Option.guard_eq_some',
    exists_const] at h
  obtain ⟨N, hN, ht, h⟩ := h
  refine ⟨N, hN, ht, ?_⟩
  obtain ⟨N', hN', h⟩ := decNode_cases h
  simp only [RefState.setNode, Function.update_self, Option.some.injEq] at hN'
  subst hN'
  rcases h with ⟨hf, rfl⟩ | ⟨hf, rfl⟩
  · refine .inl ⟨hf, ?_⟩
    simp [RefState.setNode, Node.put]
  · refine .inr ⟨hf, ?_⟩
    simp [RefState.freeNode, RefState.setNode]

/-- A new node of the process `p`. -/
def Node.fresh (p : ProcId) (ptr cookie : Nat) : Node :=
  { ptr, cookie, proc := some p, internalStrongRefs := 0, localStrongRefs := 0
    localWeakRefs := 0, tmpRefs := 1, hasStrongRef := false, hasWeakRef := false
    pendingStrongRef := false, pendingWeakRef := false, refs := [], work := none }

theorem initNode_cases {ptr cookie : Nat} (h : s.initNode p ptr cookie = some (n, s')) :
    (∃ N, s.getNode p ptr = some n ∧ s.node n = some N ∧
      s' = s.setNode n { N with tmpRefs := N.tmpRefs + 1 }) ∨
    (s.getNode p ptr = none ∧ n = s.nextNode ∧ s' = { s.setNode n (.fresh p ptr cookie) with
      nodes := Function.update s.nodes p (s.insertPtr n ptr (s.nodes p))
      nextNode := n + 1 }) := by
  simp only [RefState.initNode] at h
  split at h
  · rename_i m hm
    simp only [bind, Option.bind_eq_some_iff] at h
    obtain ⟨s₁, hs₁, h⟩ := h
    obtain ⟨N, hN, rfl⟩ := takeNode_eq hs₁
    cases h
    exact .inl ⟨N, hm, hN, rfl⟩
  · rename_i hm
    cases h
    exact .inr ⟨hm, rfl, rfl⟩

/-! ## What the operations on one node leave -/

/-- The rest of the state: all but the nodes, the references and their tables. -/
def RefState.env (s : RefState) :=
  (s.ctxMgr, s.closed, s.isDead, s.threadDead, s.bufs, s.tasks, s.msgs)

theorem decNode_env (h : s.decNode n strong internal = some s') : s'.env = s.env := by
  obtain ⟨N, -, ⟨-, rfl⟩ | ⟨-, rfl⟩⟩ := decNode_cases h <;> rfl

theorem decNilocked_env {free : Bool} (h : s.decNilocked n strong internal = some (free, s')) :
    s'.env = s.env := by
  obtain ⟨N, ns, -, -, rfl, -⟩ := decNilocked_cases h
  rfl

theorem putNode_env (h : s.putNode n = some s') : s'.env = s.env := by
  obtain ⟨N, -, -, ⟨-, rfl⟩ | ⟨-, rfl⟩⟩ := putNode_cases h <;> rfl

theorem initNode_env {ptr cookie : Nat} (h : s.initNode p ptr cookie = some (n, s')) :
    s'.env = s.env := by
  rcases initNode_cases h with ⟨N, -, -, rfl⟩ | ⟨-, -, rfl⟩ <;> rfl

end Redroid.Binder.Refs
