import Redroid.Binder.RefTurns
import Redroid.Binder.RefView

/-!
# The local references of a node

`local_strong_refs` and `local_weak_refs` of a node of a process are at least what the operations in
progress, the transaction buffers, the pending acknowledgements and the context manager are to give
back.

* `Act.owes`, `Buffer.owes`: the local references that an act or a buffer is to give back to a node;
  an object names its node by the process and the pointer.
* `RefState.spareOf`: the local references that are left for them, without the acknowledgements that
  are pending and those of the context manager.
* `Pays`: a step that owes one more has one more to spare; every step is so (`exec_pays`), unless
  `binder_node_release` resets the counters.
-/

namespace Redroid.Binder.Refs

open RefState

/-- The objects for a node of the process `q` at the place `pl`, of one kind. -/
def owing (pl : Option (ProcId × Nat)) (strong : Bool) (q : ProcId) (os : List FlatObject) : Nat :=
  os.countP fun o => o.isBinder && (pl == some (q, o.binder) && o.strong == strong)

/-- The local references on the node `n`, which is at the place `pl`, that the act is to give
back. -/
def Act.owes (n : NodeId) (pl : Option (ProcId × Nat)) (strong : Bool) : Act → Nat
  | .checks _ m _ => if m = n ∧ strong = true then 1 else 0
  | .decNode m kind => if m = n ∧ kind = strong then 1 else 0
  | .releaseObjects q os => owing pl strong q os
  | _ => 0

/-- The local references that the buffer is to give back when it is released. -/
def Buffer.owes (n : NodeId) (pl : Option (ProcId × Nat)) (strong : Bool) (B : Buffer) : Nat :=
  if B.status = .building ∨ B.status = .sent then
    (if B.targetNode = some n ∧ strong = true then 1 else 0) + owing pl strong B.proc B.objects
  else 0

/-- All local references that are to be given back. -/
def RefState.owed (s : RefState) (n : NodeId) (pl : Option (ProcId × Nat)) (strong : Bool) : Nat :=
  s.acting (Act.owes n pl strong) + s.holding (Buffer.owes n pl strong)

/-- The local references that are not for an acknowledgement or for the context manager. -/
def Node.spare (N : Node) (strong mgr : Bool) : Int :=
  N.localRefs strong - (N.pending strong).toNat - mgr.toNat

/-- `Node.spare` of the node `n`, 0 if there is none. -/
def RefState.spareOf (L : Layout) (s : RefState) (n : NodeId) (strong : Bool) : Int :=
  ((s.node n).map fun N => N.spare strong (s.isMgr L n N)).getD 0

/-- The node `n`, if it is in a tree, is at the place `pl`; or nothing is there, and `n` is new. -/
def Fits (s : RefState) (n : NodeId) : Option (ProcId × Nat) → Prop
  | none => ∀ p, n ∉ s.nodes p
  | some (p, ptr) => (n ∈ s.nodes p ∧ s.ptrOf n = ptr) ∨
      (s.nextNode ≤ n ∧ s.closed p = false ∧ s.getNode p ptr = none)

/-- What is owed to the node `n` grows by no more than what it has to spare. -/
def Pays (L : Layout) (s s' : RefState) (n : NodeId) (pl : Option (ProcId × Nat)) (strong : Bool) :
    Prop :=
  (s'.owed n pl strong : Int) + s.spareOf L n strong ≤ s.owed n pl strong + s'.spareOf L n strong

variable {L : Layout} {s s' s₁ : RefState} {m n : NodeId} {N N' : Node} {p q : ProcId} {b : BufId}
  {B B' : Buffer} {x : ThreadId} {r : RefId} {i : Nat} {a : Actor} {act : Act} {rest acts : List Act}
  {op : RefOp} {kind strong internal : Bool} {list : Option ThreadId} {pl : Option (ProcId × Nat)}
  {os : List FlatObject} {o : FlatObject}

/-! ## What there is to spare -/

theorem spareOf_some (h : s.node n = some N) :
    s.spareOf L n strong = N.spare strong (s.isMgr L n N) := by
  simp [RefState.spareOf, h]

theorem spareOf_none (h : s.node n = none) : s.spareOf L n strong = 0 := by
  simp [RefState.spareOf, h]

theorem isMgr_eq (hc : s'.ctxMgr = s.ctxMgr) (hp : N'.proc = N.proc) :
    s'.isMgr L n N' = s.isMgr L n N := by
  simp only [RefState.isMgr, hc, hp]

/-- The node is the same, and it is the context manager only if it was. -/
theorem spareOf_le (hn : s'.node n = s.node n)
    (hm : ∀ N, s.node n = some N → s'.isMgr L n N = true → s.isMgr L n N = true) :
    s.spareOf L n strong ≤ s'.spareOf L n strong := by
  cases hN : s.node n with
  | none => rw [spareOf_none hN, spareOf_none (hn.trans hN)]
  | some N =>
    rw [spareOf_some hN, spareOf_some (hn.trans hN)]
    have := hm N hN
    have : (s'.isMgr L n N).toNat ≤ (s.isMgr L n N).toNat := by
      cases hs' : s'.isMgr L n N with
      | false => exact Nat.zero_le _
      | true => rw [this hs']
    simp only [Node.spare]
    omega

theorem spareOf_same (hn : s'.node n = s.node n) (hc : s'.ctxMgr = s.ctxMgr) :
    s'.spareOf L n strong = s.spareOf L n strong := by
  simp only [RefState.spareOf, hn, RefState.isMgr, hc]

/-- The counters of one node change. -/
theorem spareOf_set (k : Int) (hN : s.node m = some N) (hs : s'.node = Function.update s.node m (some N'))
    (hc : s'.ctxMgr = s.ctxMgr) (hp : N'.proc = N.proc)
    (hk : N.localRefs strong - (N.pending strong).toNat ≤
      N'.localRefs strong - (N'.pending strong).toNat + k) :
    s.spareOf L n strong ≤ s'.spareOf L n strong + if m = n then k else 0 := by
  by_cases hmn : m = n
  · subst hmn
    rw [spareOf_some hN, spareOf_some (by rw [hs, Function.update_self]), if_pos rfl,
      isMgr_eq (N := N) hc hp]
    simp only [Node.spare]
    omega
  · rw [if_neg hmn, add_zero]
    exact (spareOf_same (by rw [hs, Function.update_of_ne (Ne.symm hmn)]) hc).ge

/-- The counters of one node change, and it has no less to spare. -/
theorem spareOf_keep (hN : s.node m = some N) (hs : s'.node = Function.update s.node m (some N'))
    (hc : s'.ctxMgr = s.ctxMgr) (hp : N'.proc = N.proc)
    (hk : N'.localRefs strong = N.localRefs strong) (hpend : N'.pending strong = N.pending strong) :
    s.spareOf L n strong ≤ s'.spareOf L n strong := by
  have := spareOf_set (L := L) (n := n) 0 hN hs hc hp (by rw [hk, hpend, add_zero])
  simpa using this

theorem spareOf_freed (k : Int) (hN : s.node m = some N) (hs : s'.node = Function.update s.node m none)
    (hc : s'.ctxMgr = s.ctxMgr) (hk : N.localRefs strong ≤ k) :
    s.spareOf L n strong ≤ s'.spareOf L n strong + if m = n then k else 0 := by
  by_cases hmn : m = n
  · subst hmn
    rw [spareOf_some hN, spareOf_none (by rw [hs, Function.update_self]), if_pos rfl]
    simp only [Node.spare]
    omega
  · rw [if_neg hmn, add_zero]
    exact (spareOf_same (by rw [hs, Function.update_of_ne (Ne.symm hmn)]) hc).ge

/-- A node without local references is freed. -/
theorem spareOf_gone (hN : s.node m = some N) (hs : s'.node = Function.update s.node m none)
    (hc : s'.ctxMgr = s.ctxMgr) (hk : N.localRefs strong = 0) :
    s.spareOf L n strong ≤ s'.spareOf L n strong := by
  have := spareOf_freed (L := L) (n := n) 0 hN hs hc hk.le
  simpa using this

@[simp] theorem Node.drop_pending : (N.drop kind internal).pending strong = N.pending strong := by
  unfold Node.drop
  split
  · split <;> rfl
  · split <;> rfl

@[simp] theorem Node.dec_pending : (N.dec kind internal).2.pending strong = N.pending strong := by
  obtain ⟨w, hw, -⟩ := N.dec_eq kind internal
  rw [hw]
  exact Node.drop_pending

theorem Node.dec_proc : (N.dec kind internal).2.proc = N.proc := by
  obtain ⟨w, hw, -⟩ := N.dec_eq kind internal
  rw [hw]
  simp

theorem Node.inc_pending {mgr : Bool} :
    (N.inc kind true list mgr).2.pending strong = N.pending strong := by
  by_cases h : (N.inc kind true list mgr).1 = true
  · obtain ⟨w, hw, -⟩ := Node.inc_succeeds h
    rw [hw]
    cases kind <;> rfl
  · rw [Node.inc_failed (by simpa using h)]

theorem Node.inc_proc {mgr : Bool} : (N.inc kind true list mgr).2.proc = N.proc := by
  by_cases h : (N.inc kind true list mgr).1 = true
  · obtain ⟨w, hw, -⟩ := Node.inc_succeeds h
    rw [hw]
    cases kind <;> rfl
  · rw [Node.inc_failed (by simpa using h)]

theorem Node.bump_localRefs : (N.bump kind false).localRefs strong =
    N.localRefs strong + if kind = strong then 1 else 0 := by
  cases kind <;> cases strong <;> simp [Node.bump, Node.localRefs]

theorem Node.bump_pending : (N.bump kind internal).pending strong = N.pending strong := by
  cases kind <;> cases internal <;> rfl

theorem Node.bump_proc : (N.bump kind internal).proc = N.proc := by
  cases kind <;> cases internal <;> rfl

theorem Node.unref_localRefs {w : Option WorkList} :
    (N.unref r kind w).localRefs strong = N.localRefs strong := by
  cases kind <;> cases strong <;> rfl

/-- `binder_dec_node` takes one local reference, or none. -/
theorem spareOf_decNode (h : s.decNode m kind internal = some s') : s.spareOf L n strong ≤
    s'.spareOf L n strong + if m = n then (if internal = false ∧ kind = strong then 1 else 0) else 0 := by
  obtain ⟨N, hN, ⟨-, rfl⟩ | ⟨hf, rfl⟩⟩ := decNode_cases h
  · refine spareOf_set _ hN rfl rfl Node.dec_proc ?_
    rw [dec_localRefs, Node.dec_pending]
    omega
  · refine spareOf_freed _ hN rfl rfl ?_
    rw [dec_free_local hf strong]

theorem spareOf_putNode (h : s.putNode m = some s') : s.spareOf L n strong ≤ s'.spareOf L n strong := by
  obtain ⟨N, hN, -, ⟨-, rfl⟩ | ⟨hf, rfl⟩⟩ := putNode_cases h
  · refine spareOf_keep hN rfl rfl Node.dec_proc ?_ ?_
    · rw [dec_localRefs]
      simp [Node.put, Node.localRefs]
    · rw [Node.dec_pending]
      rfl
  · have hk : N.localRefs strong = 0 := by
      have := dec_free_local hf strong
      simp only [Bool.true_eq_false, false_and, if_false] at this
      cases strong <;> exact this
    exact spareOf_gone hN rfl rfl hk

theorem spareOf_decNilocked {free : Bool} (hN : s.node m = some N)
    (h : (s.setNode m (N.clearPending kind)).decNilocked m kind false = some (free, s'))
    (hp : N.pending kind = true) : s.spareOf L n strong ≤ s'.spareOf L n strong := by
  obtain ⟨N', ns, hN', -, rfl, -⟩ := decNilocked_cases h
  simp only [RefState.setNode, Function.update_self, Option.some.injEq] at hN'
  subst hN'
  have hset : s.spareOf L n strong ≤ RefState.spareOf L
      { (s.setNode m (N.clearPending kind)).setNode m ((N.clearPending kind).dec kind false).2 with
        nodes := ns } n strong + if m = n then 0 else 0 :=
    spareOf_set 0 hN (by simp [RefState.setNode]; rfl) rfl ?_ ?_
  · simpa using hset
  · rw [Node.dec_proc]
    cases kind <;> rfl
  · rw [dec_localRefs, Node.dec_pending]
    cases kind <;> cases strong <;>
      simp_all [Node.clearPending, Node.localRefs, Node.pending]

/-- `binder_ioctl_set_ctx_mgr` takes a reference of each kind for the context. -/
theorem spareOf_becomeMgr (c : CtxId) (hN : s.node m = some N) : s.spareOf L n strong ≤
    RefState.spareOf L ((s.setNode m { N with
      localWeakRefs := N.localWeakRefs + 1, localStrongRefs := N.localStrongRefs + 1
      hasStrongRef := true, hasWeakRef := true }).setMgr c (some m)) n strong := by
  by_cases hmn : m = n
  · subst hmn
    rw [spareOf_some hN]
    refine le_trans ?_ (spareOf_some (Function.update_self ..)).ge
    have := Bool.toNat_le (((s.setNode m { N with
      localWeakRefs := N.localWeakRefs + 1, localStrongRefs := N.localStrongRefs + 1
      hasStrongRef := true, hasWeakRef := true }).setMgr c (some m)).isMgr L m { N with
      localWeakRefs := N.localWeakRefs + 1, localStrongRefs := N.localStrongRefs + 1
      hasStrongRef := true, hasWeakRef := true })
    cases strong <;> simp only [Node.spare, Node.localRefs, Node.pending] <;> simp <;> omega
  · refine spareOf_le (Function.update_of_ne (Ne.symm hmn) ..) fun K hK hmgr => ?_
    obtain ⟨q, hq, hmgr⟩ := (Option.any_eq_true ..).mp hmgr
    refine (Option.any_eq_true ..).mpr ⟨q, hq, ?_⟩
    simp only [RefState.setMgr, RefState.setNode, Function.update_apply] at hmgr
    split at hmgr
    · simp [hmn] at hmgr
    · exact hmgr

/-- The node of an object gets a reference for it. -/
theorem spareOf_incLocal (strong kind mgr : Bool) (hN : s.node m = some N) :
    s.spareOf L n strong + (if m = n ∧ kind = strong then 1 else 0) ≤
      (s.setNode m (N.inc kind false none mgr).2).spareOf L n strong := by
  rw [Node.inc_local]
  have hset : s.spareOf L n strong ≤ (s.setNode m (N.bump kind false)).spareOf L n strong +
      if m = n then (if kind = strong then -1 else 0) else 0 := by
    refine spareOf_set _ hN rfl rfl Node.bump_proc ?_
    rw [Node.bump_localRefs, Node.bump_pending]
    split <;> omega
  by_cases hm : m = n <;> by_cases hk : kind = strong <;> simp only [hm, hk, if_true, if_false,
    and_true, and_false, add_zero] at hset ⊢ <;> omega

theorem spareOf_clearMgr (c : CtxId) : s.spareOf L n strong ≤ (s.setMgr c none).spareOf L n strong := by
  refine spareOf_le rfl fun K hK hmgr => ?_
  obtain ⟨q, hq, hmgr⟩ := (Option.any_eq_true ..).mp hmgr
  refine (Option.any_eq_true ..).mpr ⟨q, hq, ?_⟩
  simp only [RefState.setMgr, Function.update_apply] at hmgr
  split at hmgr
  · cases hmgr
  · exact hmgr

theorem spareOf_incRef {ok : Bool} (h : s.incRef L r kind list = some (ok, s')) :
    s.spareOf L n strong ≤ s'.spareOf L n strong := by
  obtain ⟨R, -, ⟨-, -, rfl⟩ | ⟨-, -, rfl⟩ | ⟨-, -, N, hN, -, rfl⟩⟩ := incRef_cases h
  · exact le_rfl
  · exact le_rfl
  · exact spareOf_keep hN rfl rfl Node.inc_proc (inc_localRefs N strong) Node.inc_pending

theorem spareOf_decRef {last : Bool} (h : s.decRef r kind = some (last, s')) :
    s.spareOf L n strong ≤ s'.spareOf L n strong := by
  obtain ⟨R, -, ⟨-, rfl, -⟩ | ⟨-, -, ⟨-, rfl⟩ | ⟨-, -, h⟩⟩⟩ := decRef_eq h
  · exact le_rfl
  · exact le_rfl
  · have hd : (s.setRef r _).spareOf L n strong ≤ _ := spareOf_decNode h
    simp only [Bool.true_eq_false, false_and, if_false, ite_self, add_zero] at hd
    exact hd

theorem spareOf_addRef (h : s.addRef L p m = some s') :
    s.spareOf L n strong ≤ s'.spareOf L n strong := by
  obtain ⟨N, qs, hN, -, rfl⟩ := addRef_eq h
  exact spareOf_keep hN rfl rfl rfl rfl rfl

theorem spareOf_cleanupRef (ht : Tables s) (h : s.cleanupRef r = some s') :
    s.spareOf L n strong ≤ s'.spareOf L n strong := by
  obtain ⟨R, N, w, hR, hN, -, ⟨-, rfl⟩ | ⟨hf, rfl⟩⟩ :=
    cleanupRef_cases h fun R hR => ht.onNode r R hR
  · refine spareOf_keep hN rfl rfl ?_ ?_ ?_
    · rw [Node.dec_proc]
      simp [Node.unref]
    · rw [dec_localRefs, Node.unref_localRefs]
      simp
    · rw [Node.dec_pending]
      show (N.drop (R.strong != 0) true).pending strong = _
      exact Node.drop_pending
  · have hk : N.localRefs strong = 0 := by
      have := dec_free_local hf strong
      simpa [Node.unref_localRefs] using this
    exact spareOf_gone hN rfl rfl hk

theorem spareOf_initNode {ptr cookie : Nat} (h : s.initNode p ptr cookie = some (m, s'))
    (hf : s.node s.nextNode = none) (hm : ∀ c, s.ctxMgr c ≠ some s.nextNode) :
    s.spareOf L n strong ≤ s'.spareOf L n strong := by
  rcases initNode_cases h with ⟨N, -, hN, rfl⟩ | ⟨-, rfl, hs'⟩
  · exact spareOf_keep hN rfl rfl rfl rfl rfl
  · have hnode : s'.node = Function.update s.node s.nextNode (some (.fresh p ptr cookie)) := by
      rw [hs']
      rfl
    have hctx : s'.ctxMgr = s.ctxMgr := by
      rw [hs']
      rfl
    by_cases hn : n = s.nextNode
    · subst hn
      rw [spareOf_none hf, spareOf_some (by rw [hnode, Function.update_self])]
      have hno : (s.ctxMgr (L.ctxOf p) == some s.nextNode) = false := by
        simpa using hm (L.ctxOf p)
      cases strong <;> simp [Node.spare, Node.fresh, Node.localRefs, Node.pending, RefState.isMgr,
        hctx, hno]
    · exact (spareOf_same (by rw [hnode, Function.update_of_ne hn]) hctx).ge

/-! ## What is owed -/

/-- What a list of acts is to give back. -/
def owesSum (n : NodeId) (pl : Option (ProcId × Nat)) (strong : Bool) (acts : List Act) : Nat :=
  (acts.map (Act.owes n pl strong)).sum

@[simp] theorem owesSum_nil : owesSum n pl strong [] = 0 := rfl

@[simp] theorem owesSum_cons :
    owesSum n pl strong (act :: acts) = act.owes n pl strong + owesSum n pl strong acts := rfl

@[simp] theorem owesSum_append : owesSum n pl strong (acts ++ rest) =
    owesSum n pl strong acts + owesSum n pl strong rest := by
  simp [owesSum]

@[simp] theorem owing_nil : owing pl strong q [] = 0 := rfl

theorem owing_cons : owing pl strong q (o :: os) = owing pl strong q os +
    if o.isBinder = true ∧ pl = some (q, o.binder) ∧ o.strong = strong then 1 else 0 := by
  simp [owing, List.countP_cons]

theorem owing_append : owing pl strong q (os ++ [o]) = owing pl strong q os +
    if o.isBinder = true ∧ pl = some (q, o.binder) ∧ o.strong = strong then 1 else 0 := by
  simp [owing, List.countP_append, List.countP_singleton]

theorem owing_none : owing none strong q os = 0 := by
  simp [owing]

theorem owesSum_putNodes {o : Option NodeId} : owesSum n pl strong (o.toList.map .putNode) = 0 := by
  cases o <;> rfl

theorem owesSum_releaseActs {failed : Bool} : owesSum n pl strong (releaseActs b B failed) =
    (if B.targetNode = some n ∧ strong = true then 1 else 0) + owing pl strong B.proc B.objects := by
  have hput : owesSum n pl strong (if failed then B.targetNode.toList.map .putNode else []) = 0 := by
    cases failed
    · rfl
    · exact owesSum_putNodes
  simp only [releaseActs, owesSum_append, owesSum_cons, owesSum_nil, hput, Act.owes]
  cases hB : B.targetNode with
  | none => simp
  | some m => simp [Act.owes, eq_comm]

/-- A buffer that is built or sent owes what its release gives back. -/
theorem Buffer.owes_live (failed : Bool) (h : B.status = .building ∨ B.status = .sent) :
    B.owes n pl strong = owesSum n pl strong (releaseActs b B failed) := by
  rw [owesSum_releaseActs, Buffer.owes, if_pos h]

/-- Less is owed to a node that is at no place. -/
theorem owed_mono (s : RefState) (n : NodeId) (pl : Option (ProcId × Nat)) (strong : Bool) :
    s.owed n none strong ≤ s.owed n pl strong := by
  have hle {q : ProcId} {os : List FlatObject} : owing none strong q os ≤ owing pl strong q os := by
    rw [owing_none]
    exact Nat.zero_le _
  refine Nat.add_le_add (List.sum_le_sum fun t _ => List.sum_le_sum fun act _ => ?_)
    (List.sum_le_sum fun B _ => ?_)
  · cases act with
    | releaseObjects => exact hle
    | _ => exact le_rfl
  · simp only [Buffer.owes]
    split
    · exact Nat.add_le_add_left hle _
    · exact le_rfl

namespace Pays

/-- The tasks and the buffers owe `A'` and `C'` instead of `A` and `C`. -/
theorem of (A A' C C' : Nat)
    (ha : s'.acting (Act.owes n pl strong) + A = s.acting (Act.owes n pl strong) + A')
    (hc : s'.holding (Buffer.owes n pl strong) + C = s.holding (Buffer.owes n pl strong) + C')
    (h : (A' : Int) + C' + s.spareOf L n strong ≤ A + C + s'.spareOf L n strong) :
    Pays L s s' n pl strong := by
  simp only [Pays, RefState.owed]
  omega

/-- One task goes on, with the buffers as they are. -/
theorem setTask (ht : s.tasks[i]? = some ⟨a, act :: rest⟩) (hs : s'.tasks = s.tasks.set i ⟨a, acts⟩)
    (hb : s'.bufs = s.bufs)
    (h : (owesSum n pl strong acts : Int) + s.spareOf L n strong ≤
      owesSum n pl strong (act :: rest) + s'.spareOf L n strong) : Pays L s s' n pl strong := by
  refine of _ _ 0 0 (acting_set ht hs) (by simp only [RefState.holding, hb]) ?_
  simpa [owesSum] using h

/-- One task goes on, and one buffer changes. -/
theorem setBuf (ht : s.tasks[i]? = some ⟨a, act :: rest⟩) (hs : s'.tasks = s.tasks.set i ⟨a, acts⟩)
    (hB : s.bufs[b]? = some B) (hb : s'.bufs = s.bufs.set b B')
    (h : (owesSum n pl strong acts : Int) + B'.owes n pl strong + s.spareOf L n strong ≤
      owesSum n pl strong (act :: rest) + B.owes n pl strong + s'.spareOf L n strong) :
    Pays L s s' n pl strong :=
  of _ _ _ _ (acting_set ht hs) (holding_set hB hb) h

/-- A task starts, with the buffers as they are. -/
theorem addTask (hs : s'.tasks = s.tasks ++ [⟨a, acts⟩]) (hb : s'.bufs = s.bufs)
    (h : (owesSum n pl strong acts : Int) + s.spareOf L n strong ≤ s'.spareOf L n strong) :
    Pays L s s' n pl strong := by
  refine of 0 _ 0 0 (acting_append hs) (by simp only [RefState.holding, hb]) ?_
  simpa [owesSum] using h

/-- The task goes on with the release of the buffer. -/
theorem release (new : List Act) (ht : s.tasks[i]? = some ⟨a, act :: rest⟩) (hB : s.bufs[b]? = some B)
    (hst : B.status = .building ∨ B.status = .sent) (hnew : owesSum n pl strong new = 0) {failed : Bool} :
    Pays L s ((s.setReleasing b B).setTask i a (new ++ releaseActs b B failed)) n pl strong := by
  refine setBuf ht rfl hB rfl ?_
  have hzero : Buffer.owes n pl strong { B with status := .releasing } = 0 := by simp [Buffer.owes]
  rw [hzero, Buffer.owes_live (b := b) failed hst, owesSum_append, hnew]
  show _ + s.spareOf L n strong ≤ _ + s.spareOf L n strong
  push_cast
  omega

theorem trans {s₂ : RefState} (h : Pays L s s₁ n pl strong) (h' : Pays L s₁ s₂ n pl strong) :
    Pays L s s₂ n pl strong := by
  simp only [Pays] at h h' ⊢
  omega

/-- The task goes on with acts that owe no more. -/
theorem less (ht : s.tasks[i]? = some ⟨a, act :: rest⟩)
    (henv : s₁.tasks = s.tasks ∧ s₁.bufs = s.bufs)
    (h : owesSum n pl strong acts ≤ owesSum n pl strong (act :: rest))
    (hle : s.spareOf L n strong ≤ s₁.spareOf L n strong) :
    Pays L s (s₁.setTask i a acts) n pl strong := by
  refine setTask ht (by rw [← henv.1]; rfl) henv.2 ?_
  show _ ≤ _ + s₁.spareOf L n strong
  omega

/-- A task starts with acts that owe nothing. -/
theorem start (henv : s₁.tasks = s.tasks ∧ s₁.bufs = s.bufs) (h : owesSum n pl strong acts = 0)
    (hle : s.spareOf L n strong ≤ s₁.spareOf L n strong) :
    Pays L s (s₁.addTask a acts) n pl strong := by
  refine addTask (by rw [← henv.1]; rfl) henv.2 ?_
  show _ ≤ s₁.spareOf L n strong
  omega

/-- The tasks and the buffers are the same. -/
theorem same (hs : s'.tasks = s.tasks) (hb : s'.bufs = s.bufs)
    (h : s.spareOf L n strong ≤ s'.spareOf L n strong) : Pays L s s' n pl strong := by
  simp only [Pays, RefState.owed, RefState.acting, RefState.holding, hs, hb]
  omega

end Pays

/-! ## Every step -/

/-- What the local counts rest on: the context manager is a node, what is pending has been told, and
a node that is about to be released has its pointer for itself. -/
structure Based (s : RefState) : Prop where
  mgr : ∀ c, s.ctxMgr c ≠ some s.nextNode
  told : ∀ n N, s.node n = some N → (N.pendingStrongRef = true → N.hasStrongRef = true) ∧
    (N.pendingWeakRef = true → N.hasWeakRef = true)
  apart : ∀ p n m, Leaving s p n → m ∈ s.nodes p → s.ptrOf m ≠ s.ptrOf n

/-- The node of the process at a place is the one that the place is for. -/
theorem Fits.unique (hg : Good L s) (hb : Based s) (hf : Fits s n (some (p, N.ptr)))
    (hN : s.node m = some N) (hp : N.proc = some p) : m = n := by
  have hid : s.ident m = some (N.ptr, N.cookie, some p) := ident_some.mpr ⟨N, hN, rfl, rfl, hp⟩
  rcases hf with ⟨hn, hptr⟩ | ⟨-, hopen, hnone⟩
  · rcases hg.links.linked hid with hm | hl
    · exact hg.links.ptr hm hn (by rw [ptrOf_some hN, hptr])
    · exact absurd (by rw [ptrOf_some hN, hptr]) (hb.apart p m n hl hn)
  · rcases hg.links.linked hid with hm | ⟨i, rest, hi⟩
    · exact absurd (ptrOf_some hN) (hg.links.ptrOf_ne hnone hm)
    · rw [hg.shape.worker p _ (List.mem_of_getElem? hi)] at hopen
      cases hopen

/-- The place of a node that a process finds. -/
theorem Fits.found {ptr : Nat} (hg : Good L s) (hf : Fits s n pl) (hm : s.getNode p ptr = some n) :
    pl = some (p, ptr) := by
  obtain ⟨hn, N, hN, hptr⟩ := getNode_some hm
  cases pl with
  | none => exact absurd hn (hf p)
  | some k =>
    obtain ⟨q, ptr'⟩ := k
    rcases hf with ⟨hn', hptr'⟩ | ⟨hlt, -⟩
    · obtain ⟨_, _, hid⟩ := hg.links.own hn
      obtain ⟨_, _, hid'⟩ := hg.links.own hn'
      rw [hid] at hid'
      simp only [Option.some.injEq, Prod.mk.injEq] at hid'
      rw [← hptr', ptrOf_some hN, hptr, hid'.2.2]
    · exact absurd (hg.tables.nodeLt n N hN) (Nat.not_lt.mpr hlt)

theorem IncDone.pays {why : Why} {res : Option RefId} (hb : Builds s)
    (hd : IncDone s i a rest p m kind why res s') (ht : s.tasks[i]? = some ⟨a, act :: rest⟩)
    (hs : Shaped L ⟨a, act :: rest⟩)
    (hact : (∃ list, act = .incRef why p m kind list) ∨ (∃ list, act = .newRef why p m kind list) ∨
      ∃ r list, act = .incNewRef why p m r kind list) : Pays L s s' n pl strong := by
  cases hd with
  | @object b r B hB =>
    refine .setBuf ht rfl hB rfl ?_
    have hno : (FlatObject.ofHandle kind (s.descOf r)).isBinder = false := by cases kind <;> rfl
    have howes : Buffer.owes n pl strong
        { B with objects := B.objects ++ [.ofHandle kind (s.descOf r)] } = B.owes n pl strong := by
      simp only [Buffer.owes, owing_append, hno, Bool.false_eq_true, false_and, if_false, add_zero]
    rw [howes, owesSum_cons]
    show _ + s.spareOf L n strong ≤ _ + s.spareOf L n strong
    push_cast
    omega
  | command =>
    refine .setTask ht rfl rfl ?_
    show _ + s.spareOf L n strong ≤ _ + s.spareOf L n strong
    rw [owesSum_cons]
    push_cast
    omega
  | again =>
    refine .setTask ht rfl rfl ?_
    show _ + s.spareOf L n strong ≤ _ + s.spareOf L n strong
    simp only [owesSum_cons, Act.owes]
    push_cast
    omega
  | @failed b B hB =>
    obtain ⟨x, target, hmem⟩ : ∃ x target, .build x b target ∈ act :: rest := by
      rcases hact with ⟨list, rfl⟩ | ⟨list, rfl⟩ | ⟨r, list, rfl⟩
      all_goals
        obtain ⟨x, b, target, pre, rfl, hp, rfl⟩ := hs.inBuild rfl
        cases hp
        exact ⟨x, target, by simp⟩
    obtain ⟨B', hB', -, hst⟩ := hb.build _ (List.mem_of_getElem? ht) x b target hmem
    rw [hB] at hB'
    cases hB'
    exact .release [_] ht hB (.inl hst) rfl

/-- The object that `binder_translate_handle` writes for the owner of the node. -/
theorem owes_ofBinder (hg : Good L s) (hb : Based s) (hf : Fits s n pl) (kind strong : Bool)
    (hN : s.node m = some N) (hp : N.proc = some B.proc) :
    Buffer.owes n pl strong { B with objects := B.objects ++ [.ofBinder kind N.ptr N.cookie] } ≤
      B.owes n pl strong + if m = n ∧ kind = strong then 1 else 0 := by
  have hobj : owing pl strong B.proc (B.objects ++ [.ofBinder kind N.ptr N.cookie]) ≤
      owing pl strong B.proc B.objects + if m = n ∧ kind = strong then 1 else 0 := by
    rw [owing_append]
    refine Nat.add_le_add_left ?_ _
    split
    · rename_i ho
      obtain ⟨-, hpl, hk⟩ := ho
      have hmn : m = n := Fits.unique hg hb (hpl ▸ hf) hN hp
      have hkind : kind = strong := by
        rw [← hk]
        cases kind <;> rfl
      rw [if_pos ⟨hmn, hkind⟩]
    · exact Nat.zero_le _
  simp only [Buffer.owes]
  split
  · omega
  · exact Nat.zero_le _

/-- A step of a task other than the one that resets the counters of `n`. -/
theorem ActStep.pays (hg : Good L s) (hb : Based s) (hstep : ActStep L s i a rest act s')
    (ht : s.tasks[i]? = some ⟨a, act :: rest⟩) (hf : Fits s n pl) (hr : ∀ p, act ≠ .nodeRelease p n) :
    Pays L s s' n pl strong := by
  have hs : Shaped L ⟨a, act :: rest⟩ := hg.shape.task _ (List.mem_of_getElem? ht)
  have go {s₁ : RefState} {new : List Act} (henv : s₁.tasks = s.tasks ∧ s₁.bufs = s.bufs)
      (h : (owesSum n pl strong new : Int) + s.spareOf L n strong ≤
        owesSum n pl strong (act :: rest) + s₁.spareOf L n strong) :
      Pays L s (s₁.setTask i a new) n pl strong :=
    .setTask ht (by rw [← henv.1]; rfl) henv.2 h
  have fails {b : BufId} {B : Buffer} (new : List Act) (hB : s.bufs[b]? = some B)
      (hbuild : ∃ x target, .build x b target ∈ act :: rest) (hnew : owesSum n pl strong new = 0) :
      Pays L s ((s.setReleasing b B).setTask i a (new ++ releaseActs b B true)) n pl strong := by
    obtain ⟨x, target, hmem⟩ := hbuild
    obtain ⟨B', hB', -, hst⟩ := hg.builds.build _ (List.mem_of_getElem? ht) x b target hmem
    rw [hB] at hB'
    cases hB'
    exact .release new ht hB (.inl hst) hnew
  have env {s₁ : RefState} (h : s₁.env = s.env) : s₁.tasks = s.tasks ∧ s₁.bufs = s.bufs :=
    ⟨env_tasks h, env_bufs h⟩
  cases hstep with
  | checksFail =>
    refine .less ht ⟨rfl, rfl⟩ ?_ le_rfl
    simp [Act.owes]
  | @checks x m tp =>
    refine .of _ _ 0 _ (acting_set ht rfl) (holding_append rfl) ?_
    show _ + s.spareOf L n strong ≤ _ + s.spareOf L n strong
    have howes : Buffer.owes n pl strong ⟨tp, some m, [], .building⟩ =
        if m = n ∧ strong = true then 1 else 0 := by
      simp [Buffer.owes]
    rw [howes]
    simp only [List.map_cons, List.sum_cons, Act.owes]
    push_cast
    omega
  | newNodeFail hB =>
    obtain ⟨x, b, target, pre, rfl, hp, rfl⟩ := hs.inBuild rfl
    cases hp
    exact fails [] hB ⟨_, target, List.mem_cons_of_mem _ List.mem_cons_self⟩ rfl
  | translateBinderFail hB | translateHandleFail hB =>
    obtain ⟨x, b, target, pre, rfl, hp, rfl⟩ := hs.inBuild rfl
    cases hp
    exact fails [_] hB ⟨_, target, List.mem_cons_of_mem _ (List.mem_cons_of_mem _ List.mem_cons_self)⟩ rfl
  | newNode hn =>
    refine .less ht (env (initNode_env hn)) ?_ (spareOf_initNode hn hg.tables.fresh hb.mgr)
    simp [Act.owes]
  | translateBinder | translateHandle | incAlloc | releaseEnd | updateNone | doneBad | clearNone
  | setDead | releaseNodesEnd | releaseRefsEnd =>
    refine .less ht ⟨rfl, rfl⟩ ?_ le_rfl
    simp [Act.owes]
  | @translateOwn _ b m kind N B hN hB hp =>
    refine .setBuf ht rfl hB rfl ?_
    have hspare := spareOf_incLocal (L := L) (n := n) strong kind (s.isMgr L m N) hN
    have howes := owes_ofBinder hg hb hf kind strong hN hp
    simp only [owesSum_cons, Act.owes, Nat.zero_add]
    show _ + s.spareOf L n strong ≤ _ + (s.setNode m (N.inc kind false none
      (s.isMgr L m N)).2).spareOf L n strong
    by_cases hmk : m = n ∧ kind = strong
    · rw [if_pos hmk] at hspare howes
      omega
    · rw [if_neg hmk] at hspare howes
      omega
  | incFound hact _ _ hinc hdone =>
    have henv := incRef_env hinc
    refine (Pays.same (env henv).1 (env henv).2 (spareOf_incRef hinc)).trans ?_
    refine hdone.pays (hg.builds.of_env henv) (by rw [env_tasks henv]; exact ht) hs ?_
    rcases hact with rfl | rfl
    · exact .inl ⟨_, rfl⟩
    · exact .inr (.inl ⟨_, rfl⟩)
  | incNoMem _ _ hdone => exact hdone.pays hg.builds ht hs (.inl ⟨_, rfl⟩)
  | incNew hinc hdone =>
    have henv := incRef_env hinc
    refine (Pays.same (env henv).1 (env henv).2 (spareOf_incRef hinc)).trans ?_
    exact hdone.pays (hg.builds.of_env henv) (by rw [env_tasks henv]; exact ht) hs (.inr (.inr ⟨_, _, rfl⟩))
  | addRef _ _ hadd =>
    refine .less ht (env (addRef_env hadd)) ?_ (spareOf_addRef hadd)
    simp [Act.owes]
  | @decNode m kind s₁ hd =>
    refine go (env (decNode_env hd)) ?_
    have hle : s.spareOf L n strong ≤ _ := spareOf_decNode hd
    simp only [owesSum_cons, Act.owes]
    by_cases hm : m = n <;> by_cases hk : kind = strong <;> simp only [hm, hk, if_true, if_false,
      and_true, and_false] at hle ⊢ <;> push_cast <;> omega
  | putNode hp =>
    refine .less ht (env (putNode_env hp)) ?_ (spareOf_putNode hp)
    simp
  | releaseSkip =>
    refine .less ht ⟨rfl, rfl⟩ ?_ le_rfl
    simp only [owesSum_cons, Act.owes, owing_cons]
    omega
  | @releaseBinder p o os m N ho hm hN =>
    refine .less ht ⟨rfl, rfl⟩ ?_ (spareOf_keep hN rfl rfl rfl rfl rfl)
    simp only [owesSum_cons, Act.owes, owing_cons, ho, true_and]
    by_cases hmn : m = n
    · subst hmn
      rw [hf.found hg hm]
      simp only [true_and]
      omega
    · rw [if_neg fun h => hmn h.1]
      omega
  | @releaseHandle _ _ _ _ last _ ho _ _ hd =>
    refine .less ht (env (decRef_env hd)) ?_ (spareOf_decRef hd)
    simp only [owesSum_cons, owesSum_append, Act.owes, owing_cons, ho]
    cases last <;> simp [Act.owes]
  | cleanupRef hc =>
    refine .less ht (env (cleanupRef_env hc)) ?_ (spareOf_cleanupRef hg.tables hc)
    simp
  | @freeBuf b B hB =>
    refine .setBuf ht rfl hB rfl ?_
    have hzero : Buffer.owes n pl strong { B with status := .freed } = 0 := by simp [Buffer.owes]
    rw [hzero, owesSum_cons]
    show _ + s.spareOf L n strong ≤ _ + s.spareOf L n strong
    push_cast
    omega
  | updateInc _ _ hinc =>
    refine .less ht (env (incRef_env hinc)) ?_ (spareOf_incRef hinc)
    simp
  | @updateDec _ _ _ _ last _ _ _ hd =>
    refine .less ht (env (decRef_env hd)) ?_ (spareOf_decRef hd)
    cases last <;> simp [Act.owes]
  | @done m kind N free s₁ hN hp hd =>
    have henv := decNilocked_env hd
    have hle : s.spareOf L n strong ≤ s₁.spareOf L n strong := spareOf_decNilocked hN hd hp
    refine .less ht (env henv :) ?_ hle
    simp
  | @becomeMgr c m N hN =>
    refine .less ht ⟨rfl, rfl⟩ ?_ (spareOf_becomeMgr c hN)
    simp
  | dropWork _ hN =>
    exact .less ht ⟨rfl, rfl⟩ le_rfl (spareOf_keep hN rfl rfl rfl rfl rfl)
  | dropEnd hact =>
    refine .less ht ⟨rfl, rfl⟩ ?_ le_rfl
    rw [owesSum_cons]
    exact Nat.le_add_left _ _
  | clearMgr =>
    refine .less ht ⟨rfl, rfl⟩ ?_ (spareOf_clearMgr _)
    simp
  | releaseNodes _ hN =>
    refine .less ht ⟨rfl, rfl⟩ ?_ (spareOf_keep hN rfl rfl rfl rfl rfl)
    simp [Act.owes]
  | @nodeReleaseFree p m =>
    have hne : n ≠ m := by
      rintro rfl
      exact hr p rfl
    refine .less ht ⟨rfl, rfl⟩ ?_ (spareOf_le (Function.update_of_ne hne ..) fun _ _ h => h)
    simp
  | @nodeRelease p m =>
    have hne : n ≠ m := by
      rintro rfl
      exact hr p rfl
    refine .less ht ⟨rfl, rfl⟩ ?_ (spareOf_le (Function.update_of_ne hne ..) fun _ _ h => h)
    simp [Act.owes]
  | releaseRefs _ _ hc =>
    exact .less ht (env (cleanupRef_env hc)) le_rfl (spareOf_cleanupRef hg.tables hc)

/-- Every step is so, but the one that resets the counters of `n`. -/
theorem exec_pays (hg : Good L s) (hb : Based s) (he : s.exec L op = some s') (hf : Fits s n pl)
    (hr : ∀ p i ok a rest, op = .run i ok → s.tasks[i]? ≠ some ⟨a, .nodeRelease p n :: rest⟩) :
    Pays L s s' n pl strong := by
  have take {k : NodeId} {K : Node} {t : Int} (hK : s.node k = some K) : s.spareOf L n strong ≤
      (s.setNode k { K with tmpRefs := t }).spareOf L n strong := spareOf_keep hK rfl rfl rfl rfl rfl
  cases exec_cases he with
  | @transaction x handle m N tp _ _ hN =>
    refine .addTask rfl rfl ?_
    have hspare : s.spareOf L n strong ≤ (s.setNode m { N with
        localStrongRefs := N.localStrongRefs + 1, tmpRefs := N.tmpRefs + 1 }).spareOf L n strong +
          if m = n then (if strong = true then -1 else 0) else 0 := by
      refine spareOf_set _ hN rfl rfl rfl ?_
      cases strong
      · simp [Node.localRefs, Node.pending]
      · simp only [Node.localRefs, Node.pending, if_true]
        omega
    show _ ≤ (s.setNode m { N with
      localStrongRefs := N.localStrongRefs + 1, tmpRefs := N.tmpRefs + 1 }).spareOf L n strong
    simp only [owesSum_cons, owesSum_nil, Act.owes]
    by_cases hm : m = n <;> by_cases hk : strong = true <;> simp only [hm, hk, if_true, if_false,
      and_true, and_false, Bool.false_eq_true] at hspare ⊢ <;> push_cast <;> omega
  | reply =>
    refine .of 0 _ 0 _ (acting_append rfl) (holding_append rfl) ?_
    show _ + s.spareOf L n strong ≤ _ + s.spareOf L n strong
    simp [Act.owes, Buffer.owes]
  | binderFound ht _ _ hN | handle ht _ _ _ _ hN => exact .less ht ⟨rfl, rfl⟩ (by simp [Act.owes]) (take hN)
  | binderNew ht => exact .less ht ⟨rfl, rfl⟩ (by simp [Act.owes]) le_rfl
  | @fails _ i a x b target rest B _ ht hB =>
    obtain ⟨B', hB', -, hst⟩ := hg.builds.build _ (List.mem_of_getElem? ht) x b target List.mem_cons_self
    rw [hB] at hB'
    cases hB'
    exact .release [] ht hB (.inl hst) rfl
  | @send i a x b target rest B ht hB =>
    obtain ⟨B', hB', -, hst⟩ := hg.builds.build _ (List.mem_of_getElem? ht) x b target List.mem_cons_self
    rw [hB] at hB'
    cases hB'
    refine .setBuf ht rfl hB rfl ?_
    have howes : Buffer.owes n pl strong { B with status := .sent } = B.owes n pl strong := by
      simp [Buffer.owes, hst]
    rw [howes, owesSum_append, owesSum_putNodes]
    show _ + s.spareOf L n strong ≤ _ + s.spareOf L n strong
    simp [Act.owes]
  | @freeBuffer x b B _ hB hst =>
    refine .of 0 (owesSum n pl strong (releaseActs b B false)) _ _ (acting_append rfl) (holding_set hB rfl) ?_
    have hzero : Buffer.owes n pl strong { B with status := .releasing } = 0 := by simp [Buffer.owes]
    rw [hzero, Buffer.owes_live (b := b) false (.inr hst)]
    show _ + s.spareOf L n strong ≤ _ + s.spareOf L n strong
    omega
  | update | updateMgr | threadExit | close => exact .start ⟨rfl, rfl⟩ (by simp [Act.owes]) le_rfl
  | doneCommand _ _ hN | nodeInfo _ _ _ _ hN | showNode _ hN =>
    exact .start ⟨rfl, rfl⟩ (by simp [Act.owes]) (take hN)
  | @tell x m N l _ hN =>
    refine .same rfl rfl ?_
    have hle : s.spareOf L n strong ≤ (s.setNode m N.tell).spareOf L n strong +
        if m = n then 0 else 0 := by
      refine spareOf_set 0 hN rfl rfl rfl ?_
      obtain ⟨hs, hw⟩ := hb.told m N hN
      cases strong with
      | true =>
        cases hp : N.pendingStrongRef <;> cases hh : N.hasStrongRef <;> cases hst : N.strong <;>
          simp_all [Node.tell, Node.localRefs, Node.pending]
      | false =>
        cases hp : N.pendingWeakRef <;> cases hh : N.hasWeakRef <;> cases hst : N.weak <;>
          simp_all [Node.tell, Node.localRefs, Node.pending]
    rw [ite_self, add_zero] at hle
    exact hle
  | @tellFree x m N _ _ hN _ _ hw =>
    refine .same rfl rfl (spareOf_gone hN rfl rfl ?_)
    obtain ⟨-, h₁, -, -, h₂⟩ := Node.weak_eq_false.mp hw
    cases strong with
    | true => exact h₂
    | false => exact h₁
  | setCtxMgr _ _ _ hn =>
    have henv := initNode_env hn
    exact .start ⟨env_tasks henv, env_bufs henv⟩ (by simp [Act.owes])
      (spareOf_initNode hn hg.tables.fresh hb.mgr)
  | @run i ok a act rest s' ht hact =>
    refine hact.pays hg hb ht hf fun p hact' => hr p i ok a rest rfl ?_
    rw [ht, hact']

end Redroid.Binder.Refs
