import Redroid.Binder.RefLinks

/-!
# `BINDER_GET_NODE_DEBUG_INFO`

A process asks for the first node above a pointer, and repeats the call with the pointer it got; the
first call is with the pointer 0, and the pointer 0 comes back after the last node.

* `getNodeDebugInfo`: `binder_ioctl_get_node_debug_info`.
* `Ordered`: the tree of a process is ordered by the pointers of its nodes.
* `Quiet`, `DebugCalls`: calls one after the other, with steps in between that create and free no node
  of the process.
* `nodes_enumerated_iff`: the calls return every node in its turn, and then 0, if and only if no node
  has the pointer 0.
-/

namespace Redroid.Binder.Refs

/-- `struct binder_node_debug_info`. -/
structure NodeDebugInfo where
  ptr : Nat
  cookie : Nat
  hasStrongRef : Nat
  hasWeakRef : Nat
  deriving DecidableEq, Repr

/-- What `BINDER_GET_NODE_DEBUG_INFO` returns for a node. -/
def Node.debugInfo (N : Node) : NodeDebugInfo :=
  ⟨N.ptr, N.cookie, N.hasStrongRef.toNat, N.hasWeakRef.toNat⟩

/-- `memset(info, 0, sizeof(*info))`. -/
def NodeDebugInfo.zero : NodeDebugInfo := ⟨0, 0, 0, 0⟩

namespace RefState

variable (s : RefState)

/-- The node at which the loop over `proc->nodes` stops. -/
def nodeAbove (p : ProcId) (ptr : Nat) : Option NodeId :=
  (s.nodes p).find? fun n => (s.node n).any fun N => ptr < N.ptr

/-- `binder_ioctl_get_node_debug_info`. -/
def getNodeDebugInfo (p : ProcId) (ptr : Nat) : NodeDebugInfo :=
  (((s.nodeAbove p ptr).bind s.node).map Node.debugInfo).getD .zero

end RefState

open RefState

variable {L : Layout} {s s' s₁ : RefState} {m n : NodeId} {p : ProcId} {op : RefOp}

/-! ## The order of the tree -/

/-- The tree of a process is in the order of the pointers. -/
def Ordered (s : RefState) : Prop := ∀ p, (s.nodes p).Pairwise (s.ptrOf · < s.ptrOf ·)

/-- The walk down the tree keeps it in order. -/
theorem pairwise_insertPtr {ptr : Nat} {ns : List NodeId} (h : ns.Pairwise (s.ptrOf · < s.ptrOf ·))
    (hne : ∀ m ∈ ns, s.ptrOf m ≠ ptr) (hold : ∀ m ∈ ns, s'.ptrOf m = s.ptrOf m)
    (hnew : s'.ptrOf n = ptr) : (s.insertPtr n ptr ns).Pairwise (s'.ptrOf · < s'.ptrOf ·) := by
  induction ns with
  | nil => exact List.pairwise_singleton _ _
  | cons k ns ih =>
    obtain ⟨hk, hns⟩ := List.pairwise_cons.mp h
    have hkeep : (k :: ns).Pairwise (s'.ptrOf · < s'.ptrOf ·) :=
      h.imp_of_mem fun {a b} ha hb hab => by rwa [hold a ha, hold b hb]
    have hkk := hold k List.mem_cons_self
    have hkne := hne k List.mem_cons_self
    simp only [RefState.insertPtr]
    split
    · rename_i hlt
      refine List.pairwise_cons.mpr ⟨fun m hm => ?_, hkeep⟩
      rw [hnew, hold m hm]
      rcases List.mem_cons.mp hm with rfl | hm
      · exact hlt
      · exact hlt.trans (hk m hm)
    · rename_i hge
      refine List.pairwise_cons.mpr ⟨fun m hm => ?_, ih hns
        (fun m hm => hne m (List.mem_cons_of_mem k hm)) fun m hm => hold m (List.mem_cons_of_mem k hm)⟩
      rw [hkk]
      rcases mem_insertPtr.mp hm with rfl | hm
      · omega
      · rw [hold m (List.mem_cons_of_mem k hm)]
        exact hk m hm

/-- The nodes of the tree keep their pointers, and no node joins. -/
theorem Ordered.sub (h : Ordered s) (hsub : ∀ p, (s'.nodes p).Sublist (s.nodes p))
    (hptr : ∀ p, ∀ m ∈ s'.nodes p, s'.ptrOf m = s.ptrOf m) : Ordered s' := fun p =>
  ((h p).sublist (hsub p)).imp_of_mem fun {a b} ha hb hab => by rwa [hptr p a ha, hptr p b hb]

theorem freeNode_sublist {q : Option ProcId} : ((s.freeNode n q).nodes p).Sublist (s.nodes p) := by
  cases q with
  | none => exact List.Sublist.refl _
  | some q =>
    simp only [RefState.freeNode, Function.update_apply]
    split
    · rename_i hp
      exact hp ▸ List.erase_sublist
    · exact List.Sublist.refl _

/-- A node that stays in a tree keeps its pointer, cookie and process. -/
theorem NodeStep.ident_of_mem (hst : NodeStep L s s') (h : Links s) (htab : Tables s)
    (hshape : Shape L s) (hm : m ∈ s.nodes p) (hm' : m ∈ s'.nodes p) : s'.ident m = s.ident m := by
  obtain ⟨ptr, cookie, hid⟩ := h.own hm
  -- a node that the worker is about to release is in no tree
  have hleave {i : Nat} {a : Actor} {q : ProcId} {n : NodeId} {rest : List Act}
      (ht : s.tasks[i]? = some ⟨a, .nodeRelease q n :: rest⟩) : m ≠ n := by
    rintro rfl
    obtain ⟨rest', hrest, -⟩ := (hshape.task _ (List.mem_of_getElem? ht)).nodeRelease (p := q) (n := m)
      List.mem_cons_self
    cases hrest
    obtain ⟨hnot, _, _, hid'⟩ := h.leaving ⟨i, rest, ht⟩
    rw [hid] at hid'
    cases hid'
    exact hnot hm
  cases hst with
  | keep hi | find _ hi | unlink _ _ hi => rw [hi]
  | @free n N hN hi hn =>
    have hmn : m ≠ n := by
      rintro rfl
      obtain ⟨M, hM, -, -, hp⟩ := ident_some.mp hid
      rw [hN] at hM
      cases hM
      simp only [hn, RefState.freeNode, hp, Function.update_self] at hm'
      exact (h.nodup p).not_mem_erase hm'
    rw [hi, Function.update_of_ne hmn]
  | new hnew _ _ hi =>
    rw [hi, Function.update_of_ne]
    rintro rfl
    rw [hnew, ident_none.mpr htab.fresh] at hid
    cases hid
  | reset ht _ hi => rw [hi, Function.update_of_ne (hleave ht)]
  | gone ht hi => rw [hi, Function.update_of_ne (hleave ht)]

theorem Ordered.exec (h : Ordered s) (hg : Good L s) (he : s.exec L op = some s') : Ordered s' := by
  have hst := exec_nodeStep hg.tables hg.tmp hg.shape he
  have hptr (p : ProcId) (m : NodeId) (hm : m ∈ s.nodes p) (hm' : m ∈ s'.nodes p) :
      s'.ptrOf m = s.ptrOf m := by
    rw [ptrOf_eq, ptrOf_eq, hst.ident_of_mem hg.links hg.tables hg.shape hm hm']
  have hsub (hall : ∀ p, (s'.nodes p).Sublist (s.nodes p)) : Ordered s' :=
    h.sub hall fun p m hm' => hptr p m ((hall p).subset hm') hm'
  cases hst with
  | keep _ hn | find _ _ hn | reset _ _ _ hn | gone _ _ hn => exact hsub fun p => by rw [hn]
  | free _ _ hn => exact hsub fun p => hn ▸ freeNode_sublist
  | @unlink q n ns _ hns _ hn =>
    refine hsub fun p => ?_
    rw [hn, Function.update_apply]
    split
    · rename_i hp
      rw [hp, hns]
      exact List.sublist_cons_self n ns
    · exact List.Sublist.refl _
  | @new x n ptr cookie hnew hnone _ hi hn =>
    intro p
    by_cases hp : p = L.procOf x
    · subst hp
      have hnodes : s'.nodes (L.procOf x) = s.insertPtr n ptr (s.nodes (L.procOf x)) := by
        rw [hn, Function.update_self]
      have hold (m : NodeId) (hm : m ∈ s.nodes (L.procOf x)) : s'.ptrOf m = s.ptrOf m :=
        hptr _ m hm (hnodes ▸ mem_insertPtr.mpr (.inr hm))
      rw [hnodes]
      refine pairwise_insertPtr (h _) (fun m hm => hg.links.ptrOf_ne hnone hm) hold ?_
      rw [ptrOf_eq, hi, Function.update_self]
      rfl
    · have hnodes : s'.nodes p = s.nodes p := by rw [hn, Function.update_of_ne hp]
      rw [hnodes]
      exact (h p).imp_of_mem fun {a b} ha hb hab => by
        rwa [hptr p a ha (hnodes ▸ ha), hptr p b hb (hnodes ▸ hb)]

theorem ordered_of_reach (h : (refSys L).Reach s) : Good L s ∧ Ordered s :=
  h.inv (I := fun s => Good L s ∧ Ordered s)
    (by rintro _ rfl; exact ⟨good_start, fun _ => List.Pairwise.nil⟩)
    fun _ _ _ ⟨hg, ho⟩ he => ⟨hg.exec he, ho.exec hg he⟩

/-! ## The calls -/

/-- A run from `s` to `s'` in which no node of `p` is created or freed. -/
inductive Quiet (L : Layout) (p : ProcId) (s : RefState) : RefState → Prop
  | refl : Quiet L p s s
  | step {s₁ s₂ : RefState} {op : RefOp} : Quiet L p s s₁ → s₁.exec L op = some s₂ →
      s₂.nodes p = s₁.nodes p → Quiet L p s s₂

/-- A call of `BINDER_GET_NODE_DEBUG_INFO`: the state at the call, the node that the loop finds, and
what the call returns. -/
structure DebugCall where
  state : RefState
  found : Option NodeId
  info : NodeDebugInfo

/-- Calls of the process `p` one after the other, the first one with `ptr` and each other one with the
pointer that the one before returned. -/
inductive DebugCalls (L : Layout) (p : ProcId) : RefState → Nat → List DebugCall → Prop
  | nil {s : RefState} {ptr : Nat} : DebugCalls L p s ptr []
  | call {s s' : RefState} {ptr : Nat} {calls : List DebugCall} : Quiet L p s s' →
      DebugCalls L p s' (s'.getNodeDebugInfo p ptr).ptr calls →
      DebugCalls L p s ptr (⟨s', s'.nodeAbove p ptr, s'.getNodeDebugInfo p ptr⟩ :: calls)

/-- The call returns the node `n`, with its cookie and flags. -/
def DebugCall.Returns (n : NodeId) (c : DebugCall) : Prop :=
  c.found = some n ∧ ∃ N, c.state.node n = some N ∧ c.info = N.debugInfo

/-- The calls return the nodes `ns` in turn, by increasing pointers, and then the pointer 0. -/
def Enumerates (ns : List NodeId) (calls : List DebugCall) : Prop :=
  ∃ cs c, calls = cs ++ [c] ∧ List.Forall₂ DebugCall.Returns ns cs ∧
    (cs.map (·.info.ptr)).Pairwise (· < ·) ∧ c.found = none ∧ c.info = .zero

theorem Quiet.keep (h : Quiet L p s s') (hg : Good L s) : Good L s' ∧ s'.nodes p = s.nodes p ∧
    ∀ m ∈ s.nodes p, s'.ident m = s.ident m := by
  induction h with
  | refl => exact ⟨hg, rfl, fun _ _ => rfl⟩
  | step _ he hn ih =>
    obtain ⟨hg₁, hn₁, hi₁⟩ := ih
    refine ⟨hg₁.exec he, hn.trans hn₁, fun m hm => ?_⟩
    rw [← hn₁] at hm
    rw [(exec_nodeStep hg₁.tables hg₁.tmp hg₁.shape he).ident_of_mem hg₁.links hg₁.tables hg₁.shape hm
      (hn ▸ hm), hi₁ m (hn₁ ▸ hm)]

theorem Quiet.ptrOf (h : Quiet L p s s') (hg : Good L s) (hm : m ∈ s.nodes p) :
    s'.ptrOf m = s.ptrOf m := by
  rw [ptrOf_eq, ptrOf_eq, (h.keep hg).2.2 m hm]

theorem Quiet.trans {s₂ : RefState} (h : Quiet L p s s₁) (h' : Quiet L p s₁ s₂) : Quiet L p s s₂ := by
  induction h' with
  | refl => exact h
  | step _ he hn ih => exact ih.step he hn

theorem nodeAbove_eq {ptr : Nat} :
    s.nodeAbove p ptr = (s.nodes p).find? fun n => decide (ptr < s.ptrOf n) := by
  refine congrArg (fun f => (s.nodes p).find? f) (funext fun n => ?_)
  cases hN : s.node n <;> simp [RefState.ptrOf, hN]

/-- The loop stops at the first node above `ptr`. -/
theorem nodeAbove_next {ptr : Nat} {b c : List NodeId} (hns : s.nodes p = b ++ n :: c)
    (hb : ∀ m ∈ b, s.ptrOf m ≤ ptr) (hn : ptr < s.ptrOf n) : s.nodeAbove p ptr = some n := by
  have hbf : b.find? (fun m => decide (ptr < s.ptrOf m)) = none :=
    List.find?_eq_none.mpr fun m hm => by simpa using hb m hm
  rw [nodeAbove_eq, hns, List.find?_append, hbf, List.find?_cons_of_pos (by simpa using hn)]
  rfl

/-- A call that finds a node returns it. -/
theorem returns_next {ptr : Nat} (hg : Good L s) (hm : n ∈ s.nodes p)
    (hf : s.nodeAbove p ptr = some n) :
    DebugCall.Returns n ⟨s, s.nodeAbove p ptr, s.getNodeDebugInfo p ptr⟩ ∧
      (s.getNodeDebugInfo p ptr).ptr = s.ptrOf n := by
  obtain ⟨q, cookie, hid⟩ := hg.links.own hm
  obtain ⟨N, hN, -⟩ := ident_some.mp hid
  have hinfo : s.getNodeDebugInfo p ptr = N.debugInfo := by simp [getNodeDebugInfo, hf, hN]
  refine ⟨⟨hf, N, hN, hinfo⟩, ?_⟩
  rw [hinfo, RefState.ptrOf, hN]
  rfl

/-- The calls that are left return the nodes that are left. -/
theorem DebugCalls.enumerates {ptr : Nat} {calls : List DebugCall} (hc : DebugCalls L p s ptr calls)
    (hg : Good L s) (ho : (s.nodes p).Pairwise (s.ptrOf · < s.ptrOf ·)) {b c : List NodeId}
    (hns : s.nodes p = b ++ c) (hb : ∀ m ∈ b, s.ptrOf m ≤ ptr) (habove : ∀ m ∈ c, ptr < s.ptrOf m)
    (hlen : calls.length = c.length + 1) :
    Enumerates c calls ∧ ∀ x ∈ calls.dropLast, ptr < x.info.ptr := by
  induction c generalizing s ptr b calls with
  | nil =>
    cases hc with
    | nil => cases hlen
    | @call _ s' _ calls hq hc =>
      obtain rfl := List.length_eq_zero_iff.mp (Nat.succ.inj hlen)
      obtain ⟨-, hn, -⟩ := hq.keep hg
      have hnone : s'.nodeAbove p ptr = none := by
        rw [nodeAbove_eq, hn, List.find?_eq_none, hns, List.append_nil]
        intro m hm
        rw [hq.ptrOf hg (by rw [hns]; simpa using hm)]
        simpa using hb m hm
      exact ⟨⟨[], _, rfl, .nil, .nil, hnone, by simp [getNodeDebugInfo, hnone]⟩, nofun⟩
  | cons n c ih =>
    cases hc with
    | nil => cases hlen
    | @call _ s' _ calls hq hc =>
      obtain ⟨hg', hn, -⟩ := hq.keep hg
      have hptr (m : NodeId) (hm : m ∈ b ++ n :: c) : s'.ptrOf m = s.ptrOf m :=
        hq.ptrOf hg (hns ▸ hm)
      have hfound : s'.nodeAbove p ptr = some n :=
        nodeAbove_next (hn.trans hns) (fun m hm => by rw [hptr m (by simp [hm])]; exact hb m hm)
          (by rw [hptr n (by simp)]; exact habove n List.mem_cons_self)
      obtain ⟨hret, hp⟩ := returns_next hg' (by rw [hn, hns]; simp) hfound
      have hpn : (s'.getNodeDebugInfo p ptr).ptr = s.ptrOf n := hp.trans (hptr n (by simp))
      have hlt : ptr < s.ptrOf n := habove n List.mem_cons_self
      have ho' : (s'.nodes p).Pairwise (s'.ptrOf · < s'.ptrOf ·) := by
        rw [hn]
        exact ho.imp_of_mem fun {x y} hx hy hxy => by rwa [hq.ptrOf hg hx, hq.ptrOf hg hy]
      have hafter : ∀ m ∈ c, s.ptrOf n < s.ptrOf m := by
        rw [hns] at ho
        exact (List.pairwise_cons.mp (List.pairwise_append.mp ho).2.1).1
      obtain ⟨⟨cs, x, rfl, hall, hinc, hx⟩, hgt⟩ := ih hc hg' ho' (b := b ++ [n])
        (by rw [hn, hns, List.append_assoc]; rfl)
        (fun m hm => by
          rw [hpn, hptr m (by simp at hm ⊢; tauto)]
          rcases List.mem_append.mp hm with hm | hm
          · exact (hb m hm).trans hlt.le
          · rw [List.mem_singleton.mp hm])
        (fun m hm => by
          rw [hpn, hptr m (by simp [hm])]
          exact hafter m hm)
        (Nat.succ.inj hlen)
      rw [List.dropLast_concat] at hgt
      refine ⟨⟨_ :: cs, x, rfl, .cons hret hall, ?_, hx⟩, fun y hy => ?_⟩
      · exact List.pairwise_cons.mpr ⟨fun q hq' => by
          obtain ⟨y, hy, rfl⟩ := List.mem_map.mp hq'
          exact hgt y hy, hinc⟩
      · rw [← List.cons_append, List.dropLast_concat] at hy
        rcases List.mem_cons.mp hy with rfl | hy
        · exact hpn ▸ hlt
        · exact (hpn ▸ hlt).trans (hgt y hy)

theorem DebugCalls.of_mem {ptr : Nat} {calls : List DebugCall} (hc : DebugCalls L p s ptr calls)
    {c : DebugCall} (hm : c ∈ calls) :
    Quiet L p s c.state ∧ ∃ ptr', c.found = c.state.nodeAbove p ptr' := by
  induction hc with
  | nil => cases hm
  | call hq _ ih =>
    rcases List.mem_cons.mp hm with rfl | hm
    · exact ⟨hq, _, rfl⟩
    · exact (ih hm).imp_left hq.trans

theorem exists_debugCalls (k ptr : Nat) : ∃ calls, DebugCalls L p s ptr calls ∧ calls.length = k := by
  induction k generalizing ptr with
  | zero => exact ⟨[], .nil, rfl⟩
  | succ k ih =>
    obtain ⟨calls, hc, hl⟩ := ih (s.getNodeDebugInfo p ptr).ptr
    exact ⟨_, .call .refl hc, congrArg Nat.succ hl⟩

theorem exists_of_forall₂ {α β : Type} {R : α → β → Prop} {xs : List α} {ys : List β}
    (h : List.Forall₂ R xs ys) {x : α} (hx : x ∈ xs) : ∃ y ∈ ys, R x y := by
  induction h with
  | nil => cases hx
  | cons hr _ ih =>
    rcases List.mem_cons.mp hx with rfl | hx
    · exact ⟨_, List.mem_cons_self, hr⟩
    · obtain ⟨y, hy, hr⟩ := ih hx
      exact ⟨y, List.mem_cons_of_mem _ hy, hr⟩

/-- **The enumeration of the nodes of a process** with one call more than it has nodes, from the pointer
0 on, returns every node once, by increasing pointers, with its own cookie and flags, and then the
pointer 0, if and only if no node of the process has the pointer 0. -/
theorem nodes_enumerated_iff (h : (refSys L).Reach s) :
    ((∃ calls, DebugCalls L p s 0 calls ∧ calls.length = (s.nodes p).length + 1) ∧
      ∀ calls, DebugCalls L p s 0 calls → calls.length = (s.nodes p).length + 1 →
        Enumerates (s.nodes p) calls) ↔ ∀ n ∈ s.nodes p, s.ptrOf n ≠ 0 := by
  obtain ⟨hg, ho⟩ := ordered_of_reach h
  obtain ⟨calls, hc, hlen⟩ := exists_debugCalls (L := L) (s := s) (p := p) ((s.nodes p).length + 1) 0
  constructor
  · intro ⟨_, hall⟩ n hn h0
    obtain ⟨cs, x, rfl, hret, -⟩ := hall calls hc hlen
    -- the loop stops at no node with the pointer 0
    obtain ⟨c, hcm, hfound, -⟩ := exists_of_forall₂ hret hn
    obtain ⟨hq, ptr, hf⟩ := hc.of_mem (List.mem_append_left _ hcm)
    rw [hfound, nodeAbove_eq] at hf
    have hlt := List.find?_some hf.symm
    rw [hq.ptrOf hg hn, h0] at hlt
    simp at hlt
  · intro hne
    refine ⟨⟨calls, hc, hlen⟩, fun calls hc hlen => ?_⟩
    exact (hc.enumerates hg (ho p) (b := []) rfl nofun (fun m hm => Nat.pos_of_ne_zero (hne m hm))
      hlen).1

/-- The process 0 registers as context manager with the node `ptr`. -/
def afterSetCtxMgr (ptr : Nat) : RefState :=
  (start.exec oneThread (.setCtxMgr 0 ptr 0)).get rfl

theorem reach_setCtxMgr (ptr : Nat) : (refSys oneThread).Reach (afterSetCtxMgr ptr) :=
  Sys.Reach.next (a := RefOp.setCtxMgr 0 ptr 0) (.init rfl) (Option.some_get _).symm

/-- The process 1 sends two of its objects to the manager: its tree has two nodes. -/
def twoObjects : RefState :=
  (Sys.execIf (RefState.exec oneThread) (fun _ _ => True) (afterSetCtxMgr 8)
    ([.run 0 true, .run 0 true, .transaction 1 0, .run 1 true, .object 1 ⟨.binder, 16, 17⟩] ++
      List.replicate 6 (.run 1 true) ++ .object 1 ⟨.binder, 12, 13⟩ :: List.replicate 6 (.run 1 true))).get
    (by decide +kernel)

/-- The node of the pointer 12, made later, comes before that of 16. -/
theorem nodes_enumerated_twoObjects : twoObjects.nodes 1 = [2, 1] ∧
    ∀ calls, DebugCalls oneThread 1 twoObjects 0 calls → calls.length = 3 → Enumerates [2, 1] calls := by
  have hr : (refSys oneThread).Reach twoObjects :=
    Sys.ReachIf.execIf (reach_setCtxMgr 8) (Option.some_get _).symm
  have hnodes : twoObjects.nodes 1 = [2, 1] := by decide +kernel
  have hall := ((nodes_enumerated_iff (p := 1) hr).mpr (by decide +kernel)).2
  rw [hnodes] at hall
  exact ⟨hnodes, hall⟩

/-- A context manager without an object has the pointer 0: the first call does not return it. -/
theorem manager_not_enumerated : ¬ ∀ L s p, (refSys L).Reach s → ∀ calls, DebugCalls L p s 0 calls →
    calls.length = (s.nodes p).length + 1 → Enumerates (s.nodes p) calls := by
  intro hall
  have hcalls : DebugCalls oneThread 0 (afterSetCtxMgr 0) 0
      [⟨afterSetCtxMgr 0, none, .zero⟩, ⟨afterSetCtxMgr 0, none, .zero⟩] :=
    .call .refl (.call .refl .nil)
  obtain ⟨cs, c, hcs, hret, -⟩ := hall oneThread _ 0 (reach_setCtxMgr 0) _ hcalls rfl
  have hcs' : cs = [⟨afterSetCtxMgr 0, none, .zero⟩] := by
    simpa using (congrArg List.dropLast hcs).symm
  rw [hcs'] at hret
  cases hret with
  | cons hr _ => cases hr.1

end Redroid.Binder.Refs
