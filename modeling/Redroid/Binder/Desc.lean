import Redroid.Lib.RbTree
import Redroid.Binder.RefCreate

/-!
# The number of a new reference

`binder_get_ref_for_node_olocked` gives a new reference the least number that is free, from 0 on for
the context manager and from 1 on for other nodes.

* `binderGetRefForNodeOlocked`: the function, on the two trees of a process (`RefTrees`);
  `RefTrees.Ok`: they are search trees with the same references.
* `addRef_trees`: the model of the references (`RefState.addRef`), which keeps a tree as its in-order
  sequence, does the same.
* `handles_least`: the number is the least free one, and what follows for all runs.
-/

namespace Redroid.Binder.Refs

open RefState

/-- The references of the process, with its trees, `node->refs` of each node and the context manager. -/
structure RefTrees where
  ref : RefId → Option Ref
  refsByNode : RbTree RefId
  refsByDesc : RbTree RefId
  nodeRefs : NodeId → List RefId
  ctxMgr : Option NodeId

namespace RefTrees

variable (t : RefTrees)

/-- The node of a reference. -/
def nodeOf (r : RefId) : NodeId := ((t.ref r).map Ref.node).getD 0

/-- The number of a reference. -/
def descOf (r : RefId) : Nat := ((t.ref r).map Ref.desc).getD 0

/-- The walk down `refs_by_node`: the reference to the node, if it is there. -/
def lookupNode (n : NodeId) : RbTree RefId → Option (Option RefId)
  | .leaf => some none
  | .node _ left r right => do
    let R ← t.ref r
    if n < R.node then lookupNode n left
    else if n > R.node then lookupNode n right
    else some (some r)

/-- One step of the walk down `refs_by_node`, to link a new reference. -/
def byNode (n : NodeId) (r : RefId) : Option Bool := do
  let R ← t.ref r
  if n < R.node then some true else if n > R.node then some false else none

/-- One step of the walk down `refs_by_desc`; it is a `BUG` to find the number. -/
def byDesc (desc : Nat) (r : RefId) : Option Bool := do
  let R ← t.ref r
  if desc < R.desc then some true else if desc > R.desc then some false else none

/-- The first number that the scan looks at. -/
def firstDesc (n : NodeId) : Nat := if t.ctxMgr = some n then 0 else 1

/-- `binder_get_ref_for_node_olocked` in the process `p`. -/
def binderGetRefForNodeOlocked (rb : RbOps RefId) (p : ProcId) (n : NodeId) (newRef : Option RefId) :
    Option (Option RefId × RefTrees) := do
  match ← t.lookupNode n t.refsByNode with
  | some r => some (some r, t)
  | none =>
    match newRef with
    | none => some (none, t)
    | some r => do
      let refsByNode ← t.refsByNode.insertBy (t.byNode n) r
      let desc := freeDesc (t.refsByDesc.toList.map t.descOf) (t.firstDesc n)
      let refsByDesc ← t.refsByDesc.insertBy (t.byDesc desc) r
      some (some r, { t with
        ref := Function.update t.ref r (some ⟨p, desc, n, 0, 0⟩)
        refsByNode := rb.insertColor refsByNode r
        refsByDesc := rb.insertColor refsByDesc r
        nodeRefs := Function.update t.nodeRefs n (r :: t.nodeRefs n) })

/-- The trees are search trees with the same references. -/
structure Ok : Prop where
  refs : ∀ r ∈ t.refsByDesc.toList, ∃ R, t.ref r = some R
  same : t.refsByNode.toList.Perm t.refsByDesc.toList
  byNode : t.refsByNode.toList.Pairwise (t.nodeOf · < t.nodeOf ·)
  byDesc : t.refsByDesc.toList.Pairwise (t.descOf · < t.descOf ·)

/-- The reference `r` of `p` to `n` is new, with the number `d`; nothing else changes. -/
structure Added (t t' : RefTrees) (p : ProcId) (n : NodeId) (r : RefId) (d : Nat) : Prop where
  ok : t'.Ok
  ref : t'.ref = Function.update t.ref r (some ⟨p, d, n, 0, 0⟩)
  byDesc : ∃ l₁ l₂, t.refsByDesc.toList = l₁ ++ l₂ ∧ t'.refsByDesc.toList = l₁ ++ r :: l₂
  byNode : t'.refsByNode.toList.Perm (r :: t.refsByNode.toList)
  nodeRefs : t'.nodeRefs = Function.update t.nodeRefs n (r :: t.nodeRefs n)
  ctxMgr : t'.ctxMgr = t.ctxMgr

/-- The numbers that a new reference to `n` may have. -/
def free (n : NodeId) : Set Nat := {d | t.firstDesc n ≤ d ∧ ∀ r ∈ t.refsByDesc.toList, t.descOf r ≠ d}

end RefTrees

/-! ## The scan -/

/-- The scan over ascending numbers ends at the least one that is not among them, from `d` on. It
starts at 0 or 1, so no number is below `d - 1`, and the candidate never goes back. -/
theorem freeDesc_spec {es : List Nat} {d : Nat} (hs : es.Pairwise (· < ·)) (hd : ∀ e ∈ es, d ≤ e + 1)
    (hlen : d + es.length < 2 ^ 32) : d ≤ freeDesc es d ∧ freeDesc es d ∉ es ∧
      (∀ k, d ≤ k → k < freeDesc es d → k ∈ es) ∧ freeDesc es d ≤ d + es.length := by
  induction es generalizing d with
  | nil => exact ⟨le_rfl, nofun, fun k h₁ h₂ => absurd h₂ (Nat.not_lt.mpr h₁), le_rfl⟩
  | cons e es ih =>
    obtain ⟨he, hs⟩ := List.pairwise_cons.mp hs
    have hde := hd e List.mem_cons_self
    rw [List.length_cons] at hlen
    rw [freeDesc]
    by_cases hlt : d < e
    · rw [if_pos hlt]
      refine ⟨le_rfl, fun hmem => ?_, fun k h₁ h₂ => absurd h₂ (Nat.not_lt.mpr h₁), by omega⟩
      rcases List.mem_cons.mp hmem with rfl | hmem
      · omega
      · have := he d hmem
        omega
    · rw [if_neg hlt, Nat.mod_eq_of_lt (by omega)]
      obtain ⟨hle, hnot, hall, hbound⟩ := ih hs (d := e + 1) (fun e' he' => by
        have := he e' he'
        omega) (by omega)
      refine ⟨by omega, fun hmem => ?_, fun k h₁ h₂ => ?_, by rw [List.length_cons]; omega⟩
      · rcases List.mem_cons.mp hmem with heq | hmem
        · omega
        · exact hnot hmem
      · by_cases hk : k = e
        · exact hk ▸ List.mem_cons_self
        · exact List.mem_cons_of_mem _ (hall k (by omega) h₂)

/-! ## One call -/

namespace RefTrees

variable {t t' : RefTrees} {rb : RbOps RefId} {p : ProcId} {n : NodeId} {r : RefId}

theorem nodeOf_some {R : Ref} (h : t.ref r = some R) : t.nodeOf r = R.node := by simp [nodeOf, h]

theorem descOf_some {R : Ref} (h : t.ref r = some R) : t.descOf r = R.desc := by simp [descOf, h]

/-- No reference to the node is found if there is none. -/
theorem lookupNode_none {tree : RbTree RefId} (hrefs : ∀ r ∈ tree.toList, ∃ R, t.ref r = some R)
    (hn : ∀ r ∈ tree.toList, t.nodeOf r ≠ n) : t.lookupNode n tree = some none := by
  induction tree with
  | leaf => rfl
  | node c left r right ihl ihr =>
    obtain ⟨R, hR⟩ := hrefs r (by simp)
    have hne := hn r (by simp)
    rw [nodeOf_some hR] at hne
    simp only [lookupNode, hR, Option.bind_eq_bind, Option.bind_some]
    by_cases hlt : n < R.node
    · rw [if_pos hlt]
      exact ihl (fun q hq => hrefs q (by simp [hq])) fun q hq => hn q (by simp [hq])
    · rw [if_neg hlt, if_pos (Nat.lt_of_le_of_ne (Nat.not_lt.mp hlt) hne)]
      exact ihr (fun q hq => hrefs q (by simp [hq])) fun q hq => hn q (by simp [hq])

/-- The walk with a node that is not there compares the nodes. -/
theorem byNode_eq {R : Ref} (hR : t.ref r = some R) (hn : t.nodeOf r ≠ n) :
    t.byNode n r = some (decide (n < t.nodeOf r)) := by
  rw [nodeOf_some hR] at hn ⊢
  simp only [RefTrees.byNode, hR, Option.bind_eq_bind, Option.bind_some]
  by_cases hlt : n < R.node
  · rw [if_pos hlt, decide_eq_true hlt]
  · rw [if_neg hlt, if_pos (Nat.lt_of_le_of_ne (Nat.not_lt.mp hlt) hn), decide_eq_false hlt]

/-- The walk with a number that is not there compares the numbers. -/
theorem byDesc_eq {R : Ref} {d : Nat} (hR : t.ref r = some R) (hd : t.descOf r ≠ d) :
    t.byDesc d r = some (decide (d < t.descOf r)) := by
  rw [descOf_some hR] at hd ⊢
  simp only [RefTrees.byDesc, hR, Option.bind_eq_bind, Option.bind_some]
  by_cases hlt : d < R.desc
  · rw [if_pos hlt, decide_eq_true hlt]
  · rw [if_neg hlt, if_pos (Nat.lt_of_le_of_ne (Nat.not_lt.mp hlt) hd), decide_eq_false hlt]

/-- The scan finds the least free number. -/
theorem Ok.least (h : t.Ok) (hlen : t.refsByDesc.toList.length < 2 ^ 32 - 1) (n : NodeId) :
    IsLeast (t.free n) (freeDesc (t.refsByDesc.toList.map t.descOf) (t.firstDesc n)) ∧
      freeDesc (t.refsByDesc.toList.map t.descOf) (t.firstDesc n) ≤
        t.firstDesc n + t.refsByDesc.toList.length := by
  have hfirst : t.firstDesc n ≤ 1 := by
    rw [firstDesc]
    split <;> omega
  obtain ⟨hle, hnot, hall, hbound⟩ := freeDesc_spec (List.pairwise_map.mpr h.byDesc)
    (fun e _ => (hfirst.trans (Nat.le_add_left 1 e))) (by rw [List.length_map]; omega)
  rw [List.length_map] at hbound
  refine ⟨⟨⟨hle, fun q hq heq => hnot (List.mem_map.mpr ⟨q, hq, heq⟩)⟩, fun k hk => ?_⟩, hbound⟩
  by_contra hlt
  obtain ⟨q, hq, heq⟩ := List.mem_map.mp (hall k hk.1 (Nat.lt_of_not_le hlt))
  exact hk.2 q hq heq

/-- A new reference gets the least free number and joins the trees; nothing else changes. -/
theorem Ok.addNew (h : t.Ok) (rb : RbOps RefId) (p : ProcId)
    (hlen : t.refsByDesc.toList.length < 2 ^ 32 - 1) (hn : ∀ q ∈ t.refsByNode.toList, t.nodeOf q ≠ n)
    (hr : r ∉ t.refsByDesc.toList) :
    ∃ t' d, t.binderGetRefForNodeOlocked rb p n (some r) = some (some r, t') ∧ Added t t' p n r d ∧
      IsLeast (t.free n) d ∧ d = freeDesc (t.refsByDesc.toList.map t.descOf) (t.firstDesc n) := by
  obtain ⟨hleast, -⟩ := h.least hlen n
  obtain ⟨d, hd⟩ : ∃ d, d = freeDesc (t.refsByDesc.toList.map t.descOf) (t.firstDesc n) := ⟨_, rfl⟩
  rw [← hd] at hleast
  have hrefs : ∀ q ∈ t.refsByNode.toList, ∃ R, t.ref q = some R := fun q hq =>
    h.refs q (h.same.subset hq)
  have hnode : ∀ q ∈ t.refsByNode.toList, t.byNode n q = some (decide (n < t.nodeOf q)) := fun q hq => by
    obtain ⟨R, hR⟩ := hrefs q hq
    exact byNode_eq hR (hn q hq)
  have hdesc : ∀ q ∈ t.refsByDesc.toList, t.byDesc d q = some (decide (d < t.descOf q)) := fun q hq => by
    obtain ⟨R, hR⟩ := h.refs q hq
    exact byDesc_eq hR (hleast.1.2 q hq)
  obtain ⟨nodes, hnodes⟩ : ∃ nodes, t.refsByNode.insertBy (t.byNode n) r = some nodes :=
    RbTree.insertBy_isSome fun q hq => by
      rw [hnode q hq]
      rfl
  obtain ⟨descs, hdescs⟩ : ∃ descs, t.refsByDesc.insertBy (t.byDesc d) r = some descs :=
    RbTree.insertBy_isSome fun q hq => by
      rw [hdesc q hq]
      rfl
  -- the keys with the new reference
  have hold {q : RefId} (hq : q ∈ t.refsByDesc.toList) : q ≠ r := fun he => hr (he ▸ hq)
  let ref' := Function.update t.ref r (some ⟨p, d, n, 0, 0⟩)
  let t' : RefTrees := { t with
    ref := ref'
    refsByNode := rb.insertColor nodes r
    refsByDesc := rb.insertColor descs r
    nodeRefs := Function.update t.nodeRefs n (r :: t.nodeRefs n) }
  have href {q : RefId} (hq : q ∈ t.refsByDesc.toList) : t'.ref q = t.ref q :=
    Function.update_of_ne (hold hq) ..
  have hnew : t'.ref r = some ⟨p, d, n, 0, 0⟩ := Function.update_self ..
  have hnodeOf {q : RefId} (hq : q ∈ t.refsByNode.toList) : t'.nodeOf q = t.nodeOf q := by
    rw [nodeOf, nodeOf, href (h.same.subset hq)]
  have hdescOf {q : RefId} (hq : q ∈ t.refsByDesc.toList) : t'.descOf q = t.descOf q := by
    rw [descOf, descOf, href hq]
  have hnodeNew : t'.nodeOf r = n := nodeOf_some hnew
  have hdescNew : t'.descOf r = d := descOf_some hnew
  obtain ⟨l₁, l₂, hl, hl'⟩ := RbTree.insertBy_toList hdescs
  have hok : t'.Ok := by
    refine ⟨fun q hq => ?_, ?_, ?_, ?_⟩
    · rw [rb.toList_insertColor, hl', List.mem_append, List.mem_cons] at hq
      by_cases he : q = r
      · exact ⟨_, he ▸ hnew⟩
      · have hq : q ∈ t.refsByDesc.toList := by
          rw [hl, List.mem_append]
          tauto
        rw [href hq]
        exact h.refs q hq
    · exact (rb.perm_insert hnodes).trans ((h.same.cons r).trans (rb.perm_insert hdescs).symm)
    · rw [rb.toList_insertColor]
      refine RbTree.insertBy_sorted (fun q hq => ?_) (fun q hq => ?_) ?_ hnodes
      · rw [hnode q hq, hnodeNew, hnodeOf hq]
      · rw [hnodeNew, hnodeOf hq]
        exact (hn q hq).symm
      · exact h.byNode.imp_of_mem fun hq hq' hlt => by rwa [hnodeOf hq, hnodeOf hq']
    · rw [rb.toList_insertColor]
      refine RbTree.insertBy_sorted (fun q hq => ?_) (fun q hq => ?_) ?_ hdescs
      · rw [hdesc q hq, hdescNew, hdescOf hq]
      · rw [hdescNew, hdescOf hq]
        exact (hleast.1.2 q hq).symm
      · exact h.byDesc.imp_of_mem fun hq hq' hlt => by rwa [hdescOf hq, hdescOf hq']
  refine ⟨t', d, ?_, ⟨hok, rfl, ⟨l₁, l₂, hl, (rb.toList_insertColor _ _).trans hl'⟩,
    rb.perm_insert hnodes, rfl, rfl⟩, hleast, hd⟩
  rw [binderGetRefForNodeOlocked, lookupNode_none hrefs hn]
  simp only [Option.bind_eq_bind, Option.bind_some, hnodes, ← hd, hdescs]
  rfl

/-! ## The model of the references -/

/-- The trees are those of the process `p`. -/
structure Of (L : Layout) (s : RefState) (p : ProcId) (t : RefTrees) : Prop where
  ok : t.Ok
  ref : t.ref = s.ref
  byDesc : t.refsByDesc.toList = s.refsByDesc p
  byNode : t.refsByNode.toList.Perm (s.refsByNode p)
  nodeRefs : ∀ m M, s.node m = some M → t.nodeRefs m = M.refs
  ctxMgr : t.ctxMgr = s.ctxMgr (L.ctxOf p)

variable {L : Layout} {s s' s₁ : RefState} {R R' : Ref}

theorem Of.descOf (h : Of L s p t) : t.descOf = s.descOf := by
  funext q
  rw [RefTrees.descOf, RefState.descOf, h.ref]

theorem Of.nextDesc (h : Of L s p t) :
    freeDesc (t.refsByDesc.toList.map t.descOf) (t.firstDesc n) = s.nextDesc L p n := by
  rw [RefState.nextDesc, h.byDesc, h.descOf, firstDesc, h.ctxMgr]

/-- `RefState.addRef` does what the code does on the trees, and is possible. -/
theorem addRef_trees (ht : Tables s) (h : Of L s p t) (rb : RbOps RefId) {N : Node}
    (hN : s.node n = some N) (hlen : (s.refsByDesc p).length < 2 ^ 32 - 1)
    (hnone : s.getRefForNode p n = none) :
    ∃ s' t', s.addRef L p n = some s' ∧
      t.binderGetRefForNodeOlocked rb p n (some s.nextRef) = some (some s.nextRef, t') ∧
      Of L s' p t' := by
  have hfresh : s.nextRef ∉ t.refsByDesc.toList := fun hr => by
    obtain ⟨R, hR⟩ := h.ok.refs _ hr
    rw [h.ref, ht.freshRef] at hR
    cases hR
  have hother : ∀ q ∈ t.refsByNode.toList, t.nodeOf q ≠ n := fun q hq heq => by
    obtain ⟨R, hR⟩ := h.ok.refs q (h.ok.same.subset hq)
    rw [nodeOf_some hR] at heq
    rw [h.ref] at hR
    have := List.find?_eq_none.mp hnone q (h.byNode.subset hq)
    simp [hR, heq] at this
  rw [← h.byDesc] at hlen
  obtain ⟨t', d, hcall, hadd, hleast, hd⟩ := h.ok.addNew rb p hlen hother hfresh
  rw [h.nextDesc] at hd
  have hnot : s.nextDesc L p n ∉ (s.refsByDesc p).map s.descOf := fun hmem => by
    rw [← h.byDesc, ← h.descOf, ← hd] at hmem
    obtain ⟨q, hq, heq⟩ := List.mem_map.mp hmem
    exact hleast.1.2 q hq heq
  obtain ⟨qs, hqs⟩ := insertDesc_isSome (r := s.nextRef) hnot
  obtain ⟨s', hs'⟩ : ∃ s', s.addRef L p n = some s' := by
    simp only [RefState.nextDesc] at hqs
    simp [RefState.addRef, hN, hqs]
  refine ⟨s', t', hs', hcall, ?_⟩
  have htab' := ht.addRef hnone hs'
  obtain ⟨M, qs', hM, hins, heq⟩ := addRef_eq hs'
  obtain ⟨l₁, l₂, hl, hl'⟩ := hadd.byDesc
  obtain ⟨as, bs, has, rfl, -, -⟩ := Tables.insertDesc_eq (ht.sorted p) hins
  have href : t'.ref = s'.ref := by
    rw [hadd.ref, h.ref, hd, heq]
    rfl
  have hdescs : s'.refsByDesc p = as ++ s.nextRef :: bs := by
    rw [heq]
    exact Function.update_self ..
  have hdescOf : t'.descOf = s'.descOf := by
    funext q
    rw [RefTrees.descOf, RefState.descOf, href]
  have hsorted : (s'.refsByDesc p).Pairwise (t'.descOf · < t'.descOf ·) := hdescOf ▸ htab'.sorted p
  -- both lists are sorted by the numbers, and have the same references
  have hperm : t'.refsByDesc.toList.Perm (s'.refsByDesc p) := by
    rw [hl', hdescs]
    refine List.perm_middle.trans (.trans (.cons _ ?_) List.perm_middle.symm)
    rw [← hl, ← has, h.byDesc]
  refine ⟨hadd.ok, href, ?_, ?_, fun m M' hM' => ?_, ?_⟩
  · exact hperm.eq_of_pairwise (fun a b _ _ hab hba => absurd hab (Nat.lt_asymm hba)) hadd.ok.byDesc
      hsorted
  · rw [heq]
    simp only [Function.update_self]
    exact hadd.byNode.trans (h.byNode.cons _)
  · rw [hadd.nodeRefs]
    simp only [heq, RefState.setRef, RefState.setNode, Function.update_apply] at hM' ⊢
    split
    · rename_i hm
      rw [if_pos hm] at hM'
      cases hM'
      rw [h.nodeRefs n M hM]
    · rename_i hm
      rw [if_neg hm] at hM'
      exact h.nodeRefs m M' hM'
  · rw [hadd.ctxMgr, h.ctxMgr, heq]
    rfl

end RefTrees

/-! ## Runs -/

variable {L : Layout} {s s' s₁ : RefState} {p : ProcId} {n : NodeId} {r : RefId} {R R' : Ref} {op : RefOp}

/-- The number of a new reference is between the first one that the scan looks at and the number of
references after it. -/
theorem nextDesc_bounds (ht : Tables s) (hlen : (s.refsByDesc p).length < 2 ^ 32 - 1) :
    (s.nextDesc L p n = 0 → s.ctxMgr (L.ctxOf p) = some n) ∧
      s.nextDesc L p n ≤ (s.refsByDesc p).length + 1 := by
  have hfirst : (if s.ctxMgr (L.ctxOf p) = some n then 0 else 1) ≤ 1 := by
    split <;> omega
  obtain ⟨hle, -, -, hbound⟩ := freeDesc_spec (List.pairwise_map.mpr (ht.sorted p))
    (fun e _ => hfirst.trans (Nat.le_add_left 1 e)) (by rw [List.length_map]; omega)
  rw [← RefState.nextDesc, List.length_map] at hbound
  rw [← RefState.nextDesc] at hle
  refine ⟨fun hz => ?_, by omega⟩
  by_contra hmgr
  rw [if_neg hmgr, hz] at hle
  omega

/-- The step that made the reference `r`, which is now `R`. -/
structure Made (L : Layout) (s₀ : RefState) (op : RefOp) (s₁ : RefState) (r : RefId) (R : Ref) : Prop where
  step : s₀.exec L op = some s₁
  absent : s₀.ref r = none
  ref : ∃ R₁, s₁.ref r = some R₁ ∧ R.proc = R₁.proc ∧ R.desc = R₁.desc ∧ R.node = R₁.node

/-- The past of a run is reachable. -/
theorem tables_of_past {past : List (RefState × RefOp)} (h : (refSys L).Run past s)
    (hmem : (s₁, op) ∈ past) : Tables s₁ := by
  induction h with
  | init => cases hmem
  | step hrun _ ih =>
    rcases List.mem_cons.mp hmem with heq | hmem
    · cases heq
      exact tables_of_reach hrun.reach
    · exact ih hmem

/-- Every reference was made by a step of the past, with the number that was next. -/
theorem made_of_run {past : List (RefState × RefOp)} (h : (refSys L).Run past s) (hR : s.ref r = some R) :
    ∃ s₀ op s₁, (s₀, op) ∈ past ∧ s₁ ∈ s :: past.map Prod.fst ∧ Made L s₀ op s₁ r R ∧
      R.desc = s₀.nextDesc L R.proc R.node ∧
      (s₁.refsByDesc R.proc).length = (s₀.refsByDesc R.proc).length + 1 := by
  induction h generalizing R with
  | init h0 =>
    cases h0
    cases hR
  | @step past s s' op hrun hst ih =>
    have ht := tables_of_reach hrun.reach
    rcases (exec_refStep hst ht.fresh).refs ht hR with ⟨R₀, hR₀, hp, hd, hn⟩ | ⟨rfl, hdesc, hlen⟩
    · obtain ⟨s₀, op₀, s₁, hmem, hmem₁, hmade, hdesc, hlen⟩ := ih hR₀
      obtain ⟨R₁, hR₁, hp₁, hd₁, hn₁⟩ := hmade.ref
      refine ⟨s₀, op₀, s₁, List.mem_cons_of_mem _ hmem, List.mem_cons_of_mem _ hmem₁, ⟨hmade.step,
        hmade.absent, R₁, hR₁, hp.trans hp₁, hd.trans hd₁, hn.trans hn₁⟩, ?_, ?_⟩
      · rw [hd, hp, hn, hdesc]
      · rw [hp, hlen]
    · exact ⟨s, op, s', List.mem_cons_self, List.mem_cons_self,
        ⟨hst, ht.freshRef, R, hR, rfl, rfl, rfl⟩, hdesc, hlen⟩

/-- A new reference gets the least free number, from 0 on for the context manager and from 1 on for
another node, and joins the trees. In a run, a reference with the number 0 was made for the context
manager, and a number is at most the number of references that the process has had at once. -/
theorem handles_least :
    (∀ (rb : RbOps RefId) (t : RefTrees) (p : ProcId) (n : NodeId) (r : RefId), t.Ok →
      t.refsByDesc.toList.length < 2 ^ 32 - 1 → (∀ q ∈ t.refsByNode.toList, t.nodeOf q ≠ n) →
      r ∉ t.refsByDesc.toList →
      ∃ t' d, t.binderGetRefForNodeOlocked rb p n (some r) = some (some r, t') ∧
        RefTrees.Added t t' p n r d ∧ IsLeast (t.free n) d) ∧
    (∀ (L : Layout) (past : List (RefState × RefOp)) (s : RefState), (refSys L).Run past s →
      ∀ r R, s.ref r = some R → (∀ x ∈ past, (x.1.refsByDesc R.proc).length < 2 ^ 32 - 1) →
      (R.desc = 0 → ∃ s₀ op s₁, (s₀, op) ∈ past ∧ Made L s₀ op s₁ r R ∧
        s₀.ctxMgr (L.ctxOf R.proc) = some R.node) ∧
      ∃ s₀ ∈ s :: past.map Prod.fst, R.desc ≤ (s₀.refsByDesc R.proc).length) := by
  refine ⟨fun rb t p n r h hlen hn hr => ?_, fun L past s hrun r R hR hlen => ?_⟩
  · obtain ⟨t', d, hcall, hadd, hleast, -⟩ := h.addNew rb p hlen hn hr
    exact ⟨t', d, hcall, hadd, hleast⟩
  · obtain ⟨s₀, op, s₁, hmem, hmem₁, hmade, hdesc, hcount⟩ := made_of_run hrun hR
    obtain ⟨hz, hle⟩ := nextDesc_bounds (L := L) (n := R.node) (tables_of_past hrun hmem) (hlen _ hmem)
    rw [← hdesc] at hz hle
    exact ⟨fun h => ⟨s₀, op, s₁, hmem, hmade, hz h⟩, s₁, hmem₁, hcount ▸ hle⟩

/-- A process with a stale handle 0 and the handle 2. -/
def staleMgr : RefTrees where
  ref := fun r => if r = 5 then some ⟨1, 0, 3, 1, 0⟩ else if r = 6 then some ⟨1, 2, 4, 1, 0⟩ else none
  refsByNode := .node false .leaf 5 (.node true .leaf 6 .leaf)
  refsByDesc := .node false .leaf 5 (.node true .leaf 6 .leaf)
  nodeRefs := fun _ => []
  ctxMgr := some 4

theorem handles_least_staleMgr :
    (∃ t', staleMgr.binderGetRefForNodeOlocked (.unbalanced RefId) 1 9 (some 7) = some (some 7, t') ∧
      t'.refsByDesc.toList = [5, 7, 6]) ∧
    ∃ past, (refSys oneThread).Run past afterAcquire ∧
      ∃ s₀ op s₁, (s₀, op) ∈ past ∧ Made oneThread s₀ op s₁ 0 ⟨1, 0, 0, 1, 0⟩ ∧
        s₀.ctxMgr 0 = some 0 := by
  obtain ⟨hcall, hrun⟩ := handles_least
  refine ⟨?_, ?_⟩
  · have hok : staleMgr.Ok := ⟨by simp [staleMgr], .refl _, by simp [staleMgr, RefTrees.nodeOf],
      by simp [staleMgr, RefTrees.descOf]⟩
    obtain ⟨t', d, h, -, -⟩ := hcall (.unbalanced RefId) staleMgr 1 9 7 hok (by decide) (by decide)
      (by decide)
    refine ⟨t', h, ?_⟩
    cases h
    rfl
  · have hreach : (refSys oneThread).ReachIf (fun s _ => (s.refsByDesc 1).length < 2 ^ 32 - 1)
        afterAcquire := Sys.ReachIf.execIf (.init rfl) (show Sys.execIf _ _ start acquireMgr = _ from rfl)
    obtain ⟨past, hpast, hlen⟩ := hreach.run
    exact ⟨past, hpast, (hrun oneThread past afterAcquire hpast 0 _ rfl hlen).1 rfl⟩

end Redroid.Binder.Refs
