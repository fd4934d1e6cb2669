import Redroid.Binder.Desc
import Redroid.Binder.RefLocks

/-!
# Acquire and release

`BC_INCREFS` and `BC_ACQUIRE` of a handle, and then `BC_DECREFS` or `BC_RELEASE` of it.

* `RefState.refCommand`: a reference command without another operation in between.
* `SameCounts`: the counts of the references and the counters of the nodes are the same.
* `RefState.refTarget`: the reference that the first command goes to; `Wraps`: its count is -1, or has
  wrapped before.
* `release_undoes_iff`: when the second command takes back the first. `BC_INCREFS` and `BC_ACQUIRE` of
  handle 0 go to the context manager, whatever number the process has for it; and a count of -1 wraps.
-/

namespace Redroid.Binder.Refs

open RefState

/-- The counters of a node. -/
def Node.counters (N : Node) : Int × Int × Int × Int :=
  (N.internalStrongRefs, N.localStrongRefs, N.localWeakRefs, N.tmpRefs)

namespace RefState

variable (L : Layout) (s : RefState)

/-- The counters of a node, 0 if there is none. -/
def countersOf (n : NodeId) : Int × Int × Int × Int := ((s.node n).map Node.counters).getD 0

/-- `binder_update_ref_for_handle`: whether it succeeds. -/
def updateRefForHandle (p : ProcId) (desc : Nat) (increment strong : Bool) : Option (Bool × RefState) :=
  match s.getRef p desc strong with
  | none => some (false, s)
  | some r =>
    if increment then s.incRef L r strong none
    else do
      let (last, s) ← s.decRef r strong
      if last then do some (true, ← s.cleanupRef r) else some (true, s)

/-- `BC_INCREFS`, `BC_ACQUIRE`, `BC_RELEASE` or `BC_DECREFS` of the thread `x`: whether it succeeds.
`alloc`: whether `kzalloc` does. -/
def refCommand (x : ThreadId) (desc : Nat) (increment strong alloc : Bool) : Option (Bool × RefState) := do
  guard (s.idle L x)
  guard (s.outerFree (L.procOf x))
  if increment && desc == 0 then do
    guard (s.ctxFree (L.ctxOf (L.procOf x)))
    match s.ctxMgr (L.ctxOf (L.procOf x)) with
    | none => s.updateRefForHandle L (L.procOf x) desc increment strong
    | some n => do
      let N ← s.node n
      if N.proc = some (L.procOf x) then some (false, s)
      else do
        let (ok, s) ← s.incRefForNode L (L.procOf x) n strong none alloc
        if ok then some (true, s) else s.updateRefForHandle L (L.procOf x) desc increment strong
  else s.updateRefForHandle L (L.procOf x) desc increment strong

/-- The reference that `BC_INCREFS` or `BC_ACQUIRE` of a handle increments, if it is there before: that
of the handle, and for handle 0 that to the context manager of another process. -/
def refTarget (p : ProcId) (desc : Nat) (strong alloc : Bool) : Option RefId :=
  match if desc = 0 then s.ctxMgr (L.ctxOf p) else none with
  | none => s.getRef p desc strong
  | some n =>
    if (s.node n).bind Node.proc = some p then none
    else match s.getRefForNode p n with
      | some r => some r
      | none => if alloc then none else s.getRef p desc strong

end RefState

/-- The counts of the references and the counters of the nodes are the same; what is not there
counts 0. -/
def SameCounts (s s' : RefState) : Prop :=
  (∀ r strong, s'.countOf r strong = s.countOf r strong) ∧ ∀ n, s'.countersOf n = s.countersOf n

/-- The nodes without a process are on no list. -/
def Unlisted (s : RefState) : Prop := ∀ n N, s.node n = some N → N.proc = none → N.work = none

/-- An increment of handle 0 by the process `p` goes to the reference with the number 0, or to none:
the reference of `p` to the context manager has this number, or it has none and gets it, or gets no
reference. -/
def Agrees (L : Layout) (s : RefState) (p : ProcId) (alloc : Bool) : Prop :=
  ∀ n N, s.ctxMgr (L.ctxOf p) = some n → s.node n = some N → N.proc ≠ some p →
    match s.getRefForNode p n with
    | some r => s.descOf r = 0
    | none => alloc = false ∨ (∀ r ∈ s.refsByDesc p, s.descOf r ≠ 0) ∨
        (s.refsByDesc p).length = 2 ^ 32

/-- The node goes with the reference `r`: nothing else refers to it, and its owner is gone or knows of no
reference. -/
def Node.KeptBy (N : Node) (r : RefId) : Prop :=
  N.refs = [r] ∧ N.localStrongRefs = 0 ∧ N.localWeakRefs = 0 ∧ N.tmpRefs = 0 ∧
    (N.proc.isSome = true → N.hasStrongRef = false ∧ N.hasWeakRef = false)

/-- An increment of the reference `r` is not taken back by a decrement: its count wraps to 0; or it has
no count, and its node goes with it although `internal_strong_refs` is not 0, as after such a wrap. -/
def Wraps (L : Layout) (s : RefState) (r : RefId) (strong : Bool) : Prop :=
  ∃ R N, s.ref r = some R ∧ s.node R.node = some N ∧
    (R.count strong = -1 ∨ (R.unused = true ∧ N.canInc strong none (s.isMgr L R.node N) = true ∧
      N.internalStrongRefs ≠ 0 ∧ N.KeptBy r))

variable {L : Layout} {s s' s₁ s₂ : RefState} {n : NodeId} {N N' : Node} {p : ProcId} {x : ThreadId}
  {r k : RefId} {R R' : Ref} {op : RefOp} {desc : Nat} {strong alloc : Bool}

/-! ## The counts -/

namespace SameCounts

theorem refl (s : RefState) : SameCounts s s := ⟨fun _ _ => rfl, fun _ => rfl⟩

theorem symm (h : SameCounts s s₁) : SameCounts s₁ s :=
  ⟨fun r b => (h.1 r b).symm, fun n => (h.2 n).symm⟩

theorem trans (h₁ : SameCounts s s₁) (h₂ : SameCounts s₁ s₂) : SameCounts s s₂ :=
  ⟨fun r b => (h₂.1 r b).trans (h₁.1 r b), fun n => (h₂.2 n).trans (h₁.2 n)⟩

end SameCounts

theorem countersOf_some (h : s.node n = some N) : s.countersOf n = N.counters := by
  simp [RefState.countersOf, h]

theorem countersOf_none (h : s.node n = none) : s.countersOf n = 0 := by
  simp [RefState.countersOf, h]

/-- One node changes, and not in its counters. -/
theorem countersOf_update (N' : Node) (hN : s.node n = some N)
    (hs : s'.node = Function.update s.node n (some N'))
    (hc : N'.counters = N.counters) (m : NodeId) : s'.countersOf m = s.countersOf m := by
  by_cases hm : m = n
  · subst hm
    rw [countersOf_some hN, countersOf_some (by rw [hs, Function.update_self]), hc]
  · simp only [RefState.countersOf, hs, Function.update_of_ne hm]

/-- A node without counts is freed. -/
theorem countersOf_gone (hN : s.node n = some N) (hs : s'.node = Function.update s.node n none)
    (hc : N.counters = 0) (m : NodeId) : s'.countersOf m = s.countersOf m := by
  by_cases hm : m = n
  · subst hm
    rw [countersOf_some hN, countersOf_none (by rw [hs, Function.update_self]), hc]
  · simp only [RefState.countersOf, hs, Function.update_of_ne hm]

/-- An increment and a decrement of the node. -/
theorem Node.inc_dec_counters (N : Node) (strong : Bool) :
    (((N.bump strong true).dec strong true).2).counters = N.counters := by
  obtain ⟨w, hw, -⟩ := (N.bump strong true).dec_eq strong true
  rw [hw]
  cases strong <;> simp [Node.counters, Node.drop, Node.bump]

/-- The node keeps other internal strong references. -/
theorem Node.inc_dec_held (h : N.internalStrongRefs ≠ 0) : ((N.bump true true).dec true true).2 = N := by
  simp [Node.dec, Node.bump, Node.drop, Node.held, h]

/-! ## Increment and decrement -/

/-- `binder_dec_node` returns, unless the node is to be freed while its work is on a list. -/
theorem decNode_isSome {internal : Bool} (hN : s.node n = some N)
    (hw : N.proc = none → (N.dec strong internal).2.work = none) :
    ∃ s', s.decNode n strong internal = some s' := by
  have hguard : (!((N.dec strong internal).1 && N.proc.isNone &&
      (N.dec strong internal).2.work.isSome)) = true := by
    cases hp : N.proc with
    | some p => simp
    | none => simp [hw hp]
  simp only [RefState.decNode, RefState.decNilocked, hN, bind, Option.bind_some, hguard, guard,
    if_true]
  split <;> exact ⟨_, rfl⟩

/-- `binder_cleanup_ref_olocked` frees the node of a weak reference just if nothing else keeps it. -/
theorem Node.unref_dec_iff (hr : r ∈ N.refs) :
    ((N.unref r false N.work).dec false true).1 = true ↔ N.KeptBy r := by
  have hone : N.refs.erase r = [] ↔ N.refs = [r] := by
    refine ⟨fun h => ?_, fun h => by simp [h]⟩
    have := List.perm_cons_erase hr
    rwa [h, List.perm_singleton] at this
  constructor
  · intro h
    obtain ⟨hun, -, hflags⟩ := Node.dec_free h
    obtain ⟨hrefs, hs, hw, ht⟩ := Node.unused_iff.mp hun
    exact ⟨hone.mp hrefs, hs, hw, ht, hflags⟩
  · rintro ⟨hrefs, hs, hw, ht, hflags⟩
    cases hp : N.proc with
    | none => simp [Node.dec, Node.unref, Node.drop, Node.held, Node.unused, hone.mpr hrefs, hs, hw, ht, hp]
    | some p =>
      obtain ⟨hs', hw'⟩ := hflags (by rw [hp]; rfl)
      simp [Node.dec, Node.unref, Node.drop, Node.held, Node.unused, hone.mpr hrefs, hs, hw, ht, hp, hs', hw']

theorem cleanupRef_isSome (hu : Unlisted s) (hR : s.ref r = some R) (hN : s.node R.node = some N)
    (h0 : R.unused = true) : ∃ s', s.cleanupRef r = some s' := by
  obtain ⟨hstrong, -⟩ : R.strong = 0 ∧ R.weak = 0 := by simpa [Ref.unused] using h0
  have hproc : (N.unref r false N.work).proc = N.proc := by simp [Node.unref]
  obtain ⟨s₀, hs₀⟩ : ∃ s₀ : RefState, s₀ = { s with
      node := Function.update s.node R.node (some (N.unref r false N.work))
      refsByDesc := Function.update s.refsByDesc R.proc ((s.refsByDesc R.proc).erase r)
      refsByNode := Function.update s.refsByNode R.proc ((s.refsByNode R.proc).erase r) } := ⟨_, rfl⟩
  have hnode : s₀.node R.node = some (N.unref r false N.work) := by
    rw [hs₀]
    exact Function.update_self ..
  obtain ⟨s₁, hs₁⟩ : ∃ s₁, s₀.decNode R.node false true = some s₁ :=
    decNode_isSome hnode fun hp => Node.dec_unlisted hp (hu _ N hN (hproc ▸ hp)) false true
  rw [hs₀] at hs₁
  refine ⟨{ s₁ with ref := Function.update s₁.ref r none }, ?_⟩
  simp only [RefState.cleanupRef, hR, hstrong, bind, Option.bind_some, ne_eq, not_true_eq_false,
    if_false, hN]
  exact Option.bind_eq_some_iff.mpr ⟨s₁, hs₁, rfl⟩

/-- `binder_cleanup_ref_olocked` of a reference without counts changes a counter just if it frees the
node and this has one. -/
theorem cleanupRef_unused (ht : Tables s) (hu : Unlisted s) (hR : s.ref r = some R)
    (hN : s.node R.node = some N) (h0 : R.unused = true) :
    ∃ s', s.cleanupRef r = some s' ∧ (SameCounts s s' ↔ N.internalStrongRefs = 0 ∨ ¬ N.KeptBy r) := by
  have hcounts : R.strong = 0 ∧ R.weak = 0 := by simpa [Ref.unused] using h0
  obtain ⟨s', hs'⟩ := cleanupRef_isSome hu hR hN h0
  obtain ⟨K, M, w, hK, hM, hw, hcase⟩ := cleanupRef_cases hs' fun R hR => ht.onNode r R hR
  rw [hR] at hK
  cases hK
  rw [hN] at hM
  cases hM
  have hmem : r ∈ N.refs := by
    obtain ⟨M, hM, hmem⟩ := ht.onNode r R hR
    rw [hN] at hM
    cases hM
    exact hmem
  have hstrong : (R.strong != 0) = false := by simp [hcounts.1]
  rw [hcounts.1, if_pos rfl] at hw
  rw [hstrong, hw] at hcase
  have hunref : (N.unref r false N.work).counters = N.counters := rfl
  have hsame (k : RefId) (b : Bool) : s'.countOf k b = s.countOf k b := by
    rcases hcase with ⟨-, rfl⟩ | ⟨-, rfl⟩
    all_goals
      by_cases hk : k = r
      · subst hk
        simp only [RefState.countOf, RefState.dropRef, RefState.setNode, RefState.freeNode,
          Function.update_self, Option.map_none, Option.getD_none, hR, Option.map_some, Option.getD_some]
        cases b
        · exact hcounts.2.symm
        · exact hcounts.1.symm
      · simp only [RefState.countOf, RefState.dropRef, RefState.setNode, RefState.freeNode,
          Function.update_of_ne hk]
  refine ⟨s', hs', ?_⟩
  rw [← Node.unref_dec_iff hmem, Bool.not_eq_true]
  rcases hcase with ⟨hf, rfl⟩ | ⟨hf, rfl⟩
  · refine iff_of_true ⟨hsame, countersOf_update _ hN rfl ?_⟩ (.inr hf)
    obtain ⟨w', hw', -⟩ := (N.unref r false N.work).dec_eq false true
    rw [hw']
    exact hunref
  · have hgone : ((s.dropRef r R).freeNode R.node N.proc).node R.node = none := Function.update_self ..
    constructor
    · intro h
      have := h.2 R.node
      rw [countersOf_none hgone, countersOf_some hN] at this
      exact .inl (congrArg Prod.fst this).symm
    · intro h
      have hinternal := h.resolve_right (by rw [hf]; simp)
      -- the reference was the only one, and the node has no other count
      obtain ⟨-, hs, hw, htmp⟩ := Node.unused_iff.mp (Node.dec_free hf).1
      exact ⟨hsame, countersOf_gone hN rfl (Prod.ext hinternal (Prod.ext hs (Prod.ext hw htmp)))⟩

theorem Unlisted.update (h : Unlisted s) (hN : s.node n = some N)
    (hs : s'.node = Function.update s.node n (some N')) (hp : N'.proc = N.proc)
    (hw : N.proc = none → N.work = none → N'.work = none) : Unlisted s' := by
  intro m M hM hnone
  rw [hs, Function.update_apply] at hM
  split at hM
  · cases hM
    rw [hp] at hnone
    exact hw hnone (h n N hN hnone)
  · exact h m M hM hnone

/-- The same counts of a reference. -/
theorem countOf_update (hR : s.ref r = some R) (hs : s'.ref = Function.update s.ref r (some R))
    (k : RefId) (b : Bool) : s'.countOf k b = s.countOf k b := by
  rw [Function.update_eq_self_iff.mpr hR.symm] at hs
  simp only [RefState.countOf, hs]

theorem Ref.setCount_undo : (R.setCount strong (R.count strong + 1)).setCount strong (R.count strong) = R := by
  cases strong <;> rfl

@[simp] theorem Ref.setCount_count_self {i : Int32} : (R.setCount strong i).count strong = i := by
  cases strong <;> rfl

theorem Ref.count_of_unused (h : R.unused = true) (strong : Bool) : R.count strong = 0 := by
  obtain ⟨hs, hw⟩ : R.strong = 0 ∧ R.weak = 0 := by simpa [Ref.unused] using h
  cases strong
  · exact hw
  · exact hs

theorem NonNeg.count_ne (h : NonNeg s) (hR : s.ref r = some R) (strong : Bool) :
    R.count strong ≠ -1 := fun hneg => by
  have := h r R hR strong
  rw [hneg] at this
  exact absurd this (by decide)

/-- `binder_dec_ref_olocked` returns, if the node work of the last strong reference can be queued. -/
theorem decRef_isSome (hR : s.ref r = some R) (hc : R.count strong ≠ 0)
    (hd : strong = true → ∃ s', (s.setRef r (R.setCount strong (R.count strong - 1))).decNode R.node true true =
      some s') :
    ∃ s', s.decRef r strong = some ((R.setCount strong (R.count strong - 1)).unused, s') := by
  have hset : (if strong = true then { R with strong := R.strong - 1 }
      else { R with weak := R.weak - 1 }) = R.setCount strong (R.count strong - 1) := by
    cases strong <;> rfl
  have hcount : (if strong = true then R.strong else R.weak) = R.count strong := rfl
  simp only [RefState.decRef, hR, bind, Option.bind_some, hset, hcount, hc, if_false]
  split
  · rename_i hlast
    obtain ⟨s', hs'⟩ := hd (by simp at hlast; exact hlast.1)
    exact ⟨s', Option.bind_eq_some_iff.mpr ⟨s', hs', rfl⟩⟩
  · exact ⟨_, rfl⟩

/-- What an increment without a list leaves: the reference with one count more, and its node with the
counter of the first. -/
theorem incRef_none (hi : s.incRef L r strong none = some (true, s₁)) :
    ∃ R, s.ref r = some R ∧ s₁.ref = Function.update s.ref r (some (R.setCount strong (R.count strong + 1))) ∧
      ((R.count strong ≠ 0 ∧ s₁.node = s.node) ∨
        (R.count strong = 0 ∧ ∃ N, s.node R.node = some N ∧
          s₁.node = Function.update s.node R.node (some (N.bump strong true)))) := by
  obtain ⟨R, hR, ⟨hf, -⟩ | ⟨-, hc, rfl⟩ | ⟨-, hc, N, hN, hok, rfl⟩⟩ := incRef_cases hi
  · cases hf
  · exact ⟨R, hR, rfl, .inl ⟨hc, rfl⟩⟩
  · refine ⟨R, hR, rfl, .inr ⟨hc, N, hN, ?_⟩⟩
    obtain ⟨w, hw, rfl | ⟨x, hx, -⟩⟩ := Node.inc_succeeds hok
    · rw [show N.bump strong true = { N.bump strong true with work := N.work } by cases strong <;> rfl, ← hw]
      rfl
    · cases hx

/-- An increment, and then a decrement of the same reference, whose count does not wrap to 0. The node is
as before, unless it has no internal strong references. -/
theorem incRef_decRef (ht : Tables s) (hu : Unlisted s) (hR : s.ref r = some R)
    (hN : s.node R.node = some N) (hne : R.count strong ≠ -1)
    (hi : s.incRef L r strong none = some (true, s₁)) :
    ∃ s₂ M, s₁.decRef r strong = some (R.unused, s₂) ∧ s₂.ref = Function.update s₁.ref r (some R) ∧
      Unlisted s₂ ∧ s₂.node R.node = some M ∧ M.counters = N.counters ∧
      (N.internalStrongRefs ≠ 0 → M = N) ∧ SameCounts s s₂ := by
  have ht₁ : Tables s₁ := ht.incRef hi
  obtain ⟨K, hK, href, hnode⟩ := incRef_none hi
  rw [hR] at hK
  cases hK
  have hR₁ : s₁.ref r = some (R.setCount strong (R.count strong + 1)) := by rw [href, Function.update_self]
  have hu₁ : Unlisted s₁ := by
    rcases hnode with ⟨-, hnode⟩ | ⟨-, N, hN, hnode⟩
    · rwa [Unlisted, hnode]
    · exact hu.update hN hnode Node.bump_proc fun _ hw => by cases strong <;> exact hw
  obtain ⟨s₂, hs₂⟩ : ∃ s₂, s₁.decRef r strong = some (R.unused, s₂) := by
    have hc : (R.setCount strong (R.count strong + 1)).count strong ≠ 0 := by
      rw [Ref.setCount_count_self]
      grind
    have := decRef_isSome hR₁ hc fun _ => by
      obtain ⟨M, hM, -⟩ := ht₁.onNode r _ hR₁
      exact decNode_isSome (N := M) hM fun hp => Node.dec_unlisted hp (hu₁ _ M hM hp) true true
    simpa [Ref.setCount_undo] using this
  -- the reference and the counters of its node are as before
  have same (href₂ : s₂.ref = Function.update s₁.ref r (some R))
      (hcount : ∀ n, s₂.countersOf n = s.countersOf n) : SameCounts s s₂ :=
    ⟨countOf_update hR (by rw [href₂, href, Function.update_idem]), hcount⟩
  refine ⟨s₂, ?_⟩
  obtain ⟨K, hK, ⟨hz, -⟩ | ⟨-, -, hlast, rfl⟩ | ⟨hone, -, rfl, M, hM, rfl⟩⟩ :=
    decRef_cases hs₂ fun R hR => ht₁.onNode r R hR
  · rw [hR₁] at hK
    cases hK
    rw [Ref.setCount_count_self] at hz
    exact absurd hz (by grind)
  · rw [hR₁] at hK
    cases hK
    have hnode₁ : s₁.node = s.node := by
      rcases hnode with ⟨-, hnode⟩ | ⟨hz, N, hN, hnode⟩
      · exact hnode
      · cases strong with
        | false => rw [hnode]; exact Function.update_eq_self_iff.mpr hN.symm
        | true => exact absurd (by rw [Ref.setCount_count_self, hz]; rfl) (hlast rfl)
    have href₂ : (s₁.setRef r ((R.setCount strong (R.count strong + 1)).setCount strong
        ((R.setCount strong (R.count strong + 1)).count strong - 1))).ref =
        Function.update s₁.ref r (some R) := by
      simp [RefState.setRef, Ref.setCount_undo]
    refine ⟨N, hs₂, href₂, hu₁, (congrFun hnode₁ _).trans hN, rfl, fun _ => rfl, same href₂ fun n => ?_⟩
    exact congrArg (fun o => (o.map Node.counters).getD 0) (congrFun hnode₁ n)
  · rw [hR₁] at hK
    cases hK
    rcases hnode with ⟨hpos, -⟩ | ⟨-, K, hK, hnode⟩
    · rw [Ref.setCount_count_self] at hone
      exact absurd (by grind) hpos
    obtain rfl : N = K := Option.some.inj (hN.symm.trans hK)
    rw [hnode] at hM
    simp only [Ref.setCount_node, Function.update_self, Option.some.injEq] at hM
    subst hM
    have href₂ : ((s₁.setNode (R.setCount true (R.count true + 1)).node
        ((N.bump true true).dec true true).2).setRef r ((R.setCount true (R.count true + 1)).setCount true
        ((R.setCount true (R.count true + 1)).count true - 1))).ref = Function.update s₁.ref r (some R) := by
      simp [RefState.setRef, Ref.setCount_undo, RefState.setNode]
    refine ⟨((N.bump true true).dec true true).2, hs₂, href₂, ?_, ?_, Node.inc_dec_counters N true,
      Node.inc_dec_held, same href₂ fun n => ?_⟩
    · exact hu₁.update (by rw [hnode]; simp) rfl (Node.dec_proc ..)
        fun hp hw => Node.dec_unlisted hp hw true true
    · simp [RefState.setRef, RefState.setNode]
    · refine countersOf_update _ hN ?_ (Node.inc_dec_counters N true) n
      simp [RefState.setRef, RefState.setNode, hnode]

/-- A decrement of one reference leaves the counts of the others. -/
theorem decRef_other {last : Bool} (ht : Tables s) (hd : s.decRef r strong = some (last, s₁))
    (hc : (if last then s₁.cleanupRef r else some s₁) = some s₂) (hk : k ≠ r) (b : Bool) :
    s₂.countOf k b = s.countOf k b := by
  have hdec : s₁.ref k = s.ref k := by
    obtain ⟨R, -, ⟨-, rfl, -⟩ | ⟨-, -, -, rfl⟩ | ⟨-, -, -, N, -, rfl⟩⟩ :=
      decRef_cases hd fun R hR => ht.onNode r R hR
    · rfl
    · exact Function.update_of_ne hk ..
    · exact Function.update_of_ne hk ..
  cases last with
  | false =>
    cases hc
    simp only [RefState.countOf, hdec]
  | true =>
    have hclean : s₂.ref k = s₁.ref k := by
      obtain ⟨R, N, w, -, -, -, ⟨-, rfl⟩ | ⟨-, rfl⟩⟩ :=
        cleanupRef_cases hc fun R hR => (ht.decRef hd).onNode r R hR
      · exact Function.update_of_ne hk ..
      · exact Function.update_of_ne hk ..
    simp only [RefState.countOf, hclean, hdec]

/-! ## The second command -/

/-- A reference that has just been incremented is found by its number. -/
theorem getRef_incremented (ht : Tables s) (hR : s.ref r = some R) (hne : R.count strong ≠ -1)
    (hi : s.incRef L r strong none = some (true, s₁)) : s₁.getRef R.proc R.desc strong = some r := by
  obtain ⟨K, hK, href, -⟩ := incRef_none hi
  rw [hR] at hK
  cases hK
  have hR₁ : s₁.ref r = some (R.setCount strong (R.count strong + 1)) := by rw [href, Function.update_self]
  have := (ht.incRef hi).getRef strong hR₁ rfl fun hs => by
    subst hs
    simp only [Ref.setCount_strong, if_true]
    grind
  simpa using this

/-- A count of -1 goes to 0, which the second command does not decrement. -/
theorem updateRef_wrapped (ht : Tables s) (hR : s.ref r = some R) (hneg : R.count strong = -1)
    (hi : s.incRef L r strong none = some (true, s₁))
    (h : s₁.updateRefForHandle L R.proc R.desc false strong = some (true, s₂)) : ¬ SameCounts s s₂ := by
  intro hsame
  obtain ⟨K, hK, href, -⟩ := incRef_none hi
  rw [hR] at hK
  cases hK
  have ht₁ := ht.incRef hi
  have hR₁ : s₁.ref r = some (R.setCount strong 0) := by
    rw [href, Function.update_self, hneg]
    rfl
  simp only [RefState.updateRefForHandle, Bool.false_eq_true, if_false] at h
  split at h
  · cases h
  · rename_i k hk
    obtain ⟨K, hK, hKp, hKd, -⟩ := getRef_some ht₁ hk
    obtain rfl : k = r := ht₁.oneDesc ((ht₁.byDesc _ k).mpr ⟨K, hK, hKp⟩)
      ((ht₁.byDesc _ r).mpr ⟨_, hR₁, by simp⟩) (by simp [descOf_some hK, descOf_some hR₁, hKd])
    obtain ⟨⟨last, s₃⟩, hdec, h⟩ := Option.bind_eq_some_iff.mp h
    obtain ⟨M, hM, hcases⟩ := decRef_cases hdec fun R hR => ht₁.onNode _ R hR
    rw [hR₁] at hM
    cases hM
    obtain ⟨-, rfl, rfl⟩ | ⟨hne, -⟩ | ⟨hone, -⟩ := hcases
    · cases h
      have := hsame.1 k strong
      rw [countOf_some hR, countOf_some hR₁, hneg, Ref.setCount_count_self] at this
      exact absurd this (by decide)
    · simp at hne
    · rw [Ref.setCount_count_self] at hone
      exact absurd hone (by decide)

/-- A command that has incremented the reference with its number is undone, unless that wraps. -/
theorem updateRef_undone_iff (ht : Tables s) (hu : Unlisted s) (hR : s.ref r = some R)
    (hi : s.incRef L r strong none = some (true, s₁)) :
    (∃ s₂, s₁.updateRefForHandle L R.proc R.desc false strong = some (true, s₂) ∧ SameCounts s s₂) ↔
      ¬ Wraps L s r strong := by
  obtain ⟨N, hN, -⟩ := ht.onNode r R hR
  by_cases hne : R.count strong = -1
  · refine iff_of_false ?_ (not_not_intro ⟨R, N, hR, hN, .inl hne⟩)
    rintro ⟨s₂, hs₂, hsame⟩
    exact updateRef_wrapped ht hR hne hi hs₂ hsame
  obtain ⟨s₂, M, hd, href₂, hu₂, hM, hMc, hMN, hsame⟩ := incRef_decRef ht hu hR hN hne hi
  have ht₂ : Tables s₂ := (ht.incRef hi).decRef hd
  have hR₂ : s₂.ref r = some R := by rw [href₂, Function.update_self]
  have hcall : s₁.updateRefForHandle L R.proc R.desc false strong =
      if R.unused then (s₂.cleanupRef r).bind fun s => some (true, s) else some (true, s₂) := by
    simp [RefState.updateRefForHandle, getRef_incremented ht hR hne hi, hd]
  rw [hcall]
  cases hun : R.unused with
  | false =>
    refine iff_of_true ⟨s₂, by simp, hsame⟩ ?_
    rintro ⟨R', -, hR', -, hw | ⟨hw, -⟩⟩
    all_goals
      rw [hR] at hR'
      cases hR'
    · exact hne hw
    · rw [hun] at hw
      cases hw
  | true =>
    -- the reference goes, and perhaps its node
    obtain ⟨s₃, hs₃, hsame₃⟩ := cleanupRef_unused ht₂ hu₂ hR₂ hM hun
    have hcan : N.canInc strong none (s.isMgr L R.node N) = true := by
      obtain ⟨s', hs'⟩ := incRef_zero L none hR (Ref.count_of_unused hun strong) hN
      rw [hi] at hs'
      exact (Prod.mk.inj (Option.some.inj hs')).1.symm
    have hint : M.internalStrongRefs = N.internalStrongRefs := congrArg Prod.fst hMc
    have hiff : SameCounts s s₃ ↔ N.internalStrongRefs = 0 ∨ ¬ N.KeptBy r := by
      rw [show SameCounts s s₃ ↔ SameCounts s₂ s₃ from ⟨hsame.symm.trans, hsame.trans⟩, hsame₃, hint]
      by_cases hz : N.internalStrongRefs = 0
      · simp only [hz, true_or]
      · rw [hMN hz]
    simp only [hs₃, if_true, Option.bind_some, Option.some.injEq, Prod.mk.injEq, true_and, exists_eq_left',
      hiff, Wraps, not_exists, not_and, not_or]
    constructor
    · rintro h R' N' hR' hN'
      rw [hR] at hR'
      cases hR'
      rw [hN] at hN'
      cases hN'
      exact ⟨hne, fun _ _ hz hk => hz (h.resolve_right (not_not_intro hk))⟩
    · intro h
      by_cases hz : N.internalStrongRefs = 0
      · exact .inl hz
      · exact .inr ((h R N hR hN).2 hun hcan hz)

/-- An increment that wraps succeeds. -/
theorem Wraps.incRef (h : Wraps L s r strong) : ∃ s₁, s.incRef L r strong none = some (true, s₁) := by
  obtain ⟨R, N, hR, hN, hw | ⟨hun, hcan, -⟩⟩ := h
  · have hne : (if strong = true then R.strong else R.weak) ≠ 0 := by
      have : R.count strong ≠ 0 := by rw [hw]; decide
      exact this
    exact ⟨_, by simp only [RefState.incRef, hR, bind, Option.bind_some, hne, if_false]; rfl⟩
  · obtain ⟨s₁, hs₁⟩ := incRef_zero L none hR (Ref.count_of_unused hun strong) hN
    exact ⟨s₁, by rw [hs₁, hcan]⟩

/-- A reference does not take a node with it that its owner knows of. -/
theorem not_wraps_of_told (hR : s.ref r = some R) (hN : s.node R.node = some N)
    (hne : R.count strong ≠ -1) (hp : N.proc.isSome = true) (ht : N.hasStrongRef = true) :
    ¬ Wraps L s r strong := by
  rintro ⟨R', N', hR', hN', hw | ⟨-, -, -, hf⟩⟩
  all_goals
    rw [hR] at hR'
    cases hR'
  · exact hne hw
  · rw [hN] at hN'
    cases hN'
    have := (hf.2.2.2.2 hp).1
    rw [ht] at this
    cases this

/-- Where no count has been incremented at `INT_MAX`. -/
theorem not_wraps_of_reachIf (h : (refSys L).ReachIf (fun s op => s.overflows op = false) s) :
    ¬ Wraps L s r strong := by
  obtain ⟨hn, hx⟩ := nonNeg_of_reachIf h
  rintro ⟨R, N, hR, hN, hw | ⟨hun, -, hz, hf⟩⟩
  · exact hn.count_ne hR strong hw
  · refine hz ?_
    -- the reference is the only one of its node, and is not strong
    have hstrong : R.strong = 0 := Ref.count_of_unused hun true
    have hzero : N.refs.countP (fun k => s.strongOf k != 0) = 0 := by
      simp [hf.1, RefState.strongOf, hR, hstrong]
    have := hx _ N hN
    rwa [Node.excess, hzero, Nat.cast_zero, sub_zero] at this

/-- A command that has incremented a reference with another number is not undone. -/
theorem updateRef_kept (ht : Tables s) (hR : s.ref r = some R) (hd : R.desc ≠ desc)
    (hi : s.incRef L r strong none = some (true, s₁))
    (h : s₁.updateRefForHandle L p desc false strong = some (true, s₂)) : ¬ SameCounts s s₂ := by
  intro hsame
  obtain ⟨K, hK, href, -⟩ := incRef_none hi
  rw [hR] at hK
  cases hK
  have hone : s₁.countOf r strong = R.count strong + 1 := by
    rw [countOf_some (by rw [href, Function.update_self])]
    simp
  have ht₁ := ht.incRef hi
  simp only [RefState.updateRefForHandle, Bool.false_eq_true, if_false] at h
  split at h
  · cases h
  · rename_i k hk
    obtain ⟨⟨last, s₃⟩, hdec, h⟩ := Option.bind_eq_some_iff.mp h
    have hclean : (if last then s₃.cleanupRef k else some s₃) = some s₂ := by
      cases last with
      | false =>
        cases h
        rfl
      | true =>
        obtain ⟨s₄, hclean, h⟩ := Option.bind_eq_some_iff.mp h
        cases h
        exact hclean
    have hkr : r ≠ k := by
      rintro rfl
      obtain ⟨K, hK, -, hKd, -⟩ := getRef_some ht₁ hk
      rw [href, Function.update_self] at hK
      cases hK
      exact hd (by simpa using hKd)
    have := decRef_other ht₁ hdec hclean hkr strong
    rw [hsame.1 r strong, hone, countOf_some hR] at this
    grind

/-! ## The context manager -/

/-- The owner of a context manager has been told of strong and weak references to it. -/
def MgrTold (s : RefState) : Prop := ∀ c n N, s.ctxMgr c = some n → s.node n = some N →
  N.hasStrongRef = true ∧ N.hasWeakRef = true

theorem MgrTold.exec (h : MgrTold s) (hg : Good L s) (hl : Local L s) (he : s.exec L op = some s') :
    MgrTold s' := by
  intro c n N' hc hN'
  have old (hc : s.ctxMgr c = some n) : N'.hasStrongRef = true ∧ N'.hasWeakRef = true := by
    obtain ⟨N, q, hN, hp, rfl, -⟩ := hl.mgr c n hc
    obtain ⟨hs, hw⟩ := h _ n N hc hN
    have flags (hf : N'.flags = N.flags) : N'.hasStrongRef = true ∧ N'.hasWeakRef = true := by
      simp only [Node.flags, Prod.mk.injEq] at hf
      exact ⟨hf.1.2.trans hs, hf.2.2.trans hw⟩
    rcases exec_turns hg.tables he hN' with ⟨K, hK, hturn⟩ | ⟨hnew, -⟩
    · rw [hN] at hK
      cases hK
      cases hturn with
      | same | take | transaction | addRef | dropWork | nodeRelease => exact ⟨hs, hw⟩
      | translateOwn => exact flags Node.bump_flags
      | inc => exact flags Node.inc_flags
      | decNode | decRef => exact flags Node.dec_flags
      | putNode => exact flags Node.dec_flags
      | cleanupRef => exact flags (Node.dec_flags.trans Node.unref_flags)
      | @done _ _ _ strong =>
        have hf : ((N.clearPending strong).dec strong false).2.flags = (N.clearPending strong).flags :=
          Node.dec_flags
        have hclear : (N.clearPending strong).hasStrongRef = N.hasStrongRef ∧
            (N.clearPending strong).hasWeakRef = N.hasWeakRef := by
          cases strong <;> exact ⟨rfl, rfl⟩
        simp only [Node.flags, Prod.mk.injEq] at hf
        exact ⟨hf.1.2.trans (hclear.1.trans hs), hf.2.2.trans (hclear.2.trans hw)⟩
      | readNode =>
        have hlocal (strong : Bool) := hl.mgr_kept hg.links hN hp hc strong
        have hstrong : N.strong = true := by
          have := hlocal true
          simp only [Node.localRefs, if_true] at this
          simp only [Node.strong, Bool.or_eq_true, bne_iff_ne]
          exact .inr (by omega)
        exact ⟨hstrong, Node.weak_of_strong hstrong⟩
      | becomeMgr => exact ⟨rfl, rfl⟩
    · exact absurd (hg.tables.nodeLt n N hN) (hnew ▸ lt_irrefl _)
  rcases exec_ctxMgr he with hsame | ⟨i, ok, a, act, rest, rfl, hi, ⟨c', m, M, rfl, hM, hnode, hmgr⟩ |
    ⟨p, rfl, -, hmgr⟩⟩
  · exact old (hsame ▸ hc)
  · rw [hmgr, Function.update_apply] at hc
    split at hc
    · cases hc
      rw [hnode, Function.update_self] at hN'
      cases hN'
      exact ⟨rfl, rfl⟩
    · exact old hc
  · rw [hmgr, Function.update_apply] at hc
    split at hc
    · cases hc
    · exact old hc

theorem mgrTold_of_reach (h : (refSys L).Reach s) : MgrTold s := by
  have := Sys.Reach.inv (I := fun s => (Good L s ∧ Local L s) ∧ MgrTold s)
    (by rintro _ rfl; exact ⟨⟨good_start, local_start⟩, fun c n N hc => by simp [start] at hc⟩)
    (fun _ _ _ hi he => ⟨⟨hi.1.1.exec he, hi.1.2.exec hi.1.1 he⟩, hi.2.exec hi.1.1 hi.1.2 he⟩) h
  exact this.2

/-- An increment of a reference to the context manager succeeds. -/
theorem canInc_mgr (h : (refSys L).Reach s) (hc : s.ctxMgr (L.ctxOf p) = some n) (hN : s.node n = some N)
    (strong : Bool) : N.canInc strong none (s.isMgr L n N) = true := by
  obtain ⟨hs, hw⟩ := mgrTold_of_reach h _ n N hc hN
  obtain ⟨K, q, hK, hp, hq, -⟩ := (local_of_reach h).2.mgr _ n hc
  rw [hN] at hK
  cases hK
  have hmgr : s.isMgr L n N = true := by simp [RefState.isMgr, hp, hq, hc]
  cases strong <;> simp [Node.canInc, hs, hw, hp, hmgr]

/-! ## The numbers -/

/-- The numbers of a process are different, and have 32 bits. -/
theorem descs_finset (ht : Tables s) (hd : Descs s) : ((s.refsByDesc p).map s.descOf).Nodup ∧
    ((s.refsByDesc p).map s.descOf).toFinset ⊆ Finset.range (2 ^ 32) := by
  refine ⟨(List.pairwise_map.mpr (ht.sorted p)).imp Nat.ne_of_lt, fun k hk => ?_⟩
  obtain ⟨r, hr, rfl⟩ := List.mem_map.mp (List.mem_toFinset.mp hk)
  obtain ⟨R, hR, -⟩ := (ht.byDesc p r).mp hr
  rw [Finset.mem_range, descOf_some hR]
  exact hd r R hR

theorem length_refs (ht : Tables s) (hd : Descs s) : (s.refsByDesc p).length ≤ 2 ^ 32 := by
  obtain ⟨hnodup, hsub⟩ := descs_finset (p := p) ht hd
  have := Finset.card_le_card hsub
  rwa [List.toFinset_card_of_nodup hnodup, List.length_map, Finset.card_range] at this

/-- All numbers are in use when there are as many references as numbers. -/
theorem desc_used (ht : Tables s) (hd : Descs s) (hlen : (s.refsByDesc p).length = 2 ^ 32) {d : Nat}
    (hlt : d < 2 ^ 32) : d ∈ (s.refsByDesc p).map s.descOf := by
  obtain ⟨hnodup, hsub⟩ := descs_finset (p := p) ht hd
  have heq := Finset.eq_of_subset_of_card_le hsub (by
    rw [List.toFinset_card_of_nodup hnodup, List.length_map, hlen, Finset.card_range])
  rw [← List.mem_toFinset, heq, Finset.mem_range]
  exact hlt

/-- A new reference to the context manager gets a number, unless all are in use. -/
theorem addRef_mgr (ht : Tables s) (hc : s.ctxMgr (L.ctxOf p) = some n) (hN : s.node n = some N)
    (hlen : (s.refsByDesc p).length < 2 ^ 32) :
    (∃ s₁, s.addRef L p n = some s₁) ∧ s.nextDesc L p n ∉ (s.refsByDesc p).map s.descOf := by
  have hfree : s.nextDesc L p n ∉ (s.refsByDesc p).map s.descOf := by
    simp only [RefState.nextDesc, hc, if_true]
    exact (freeDesc_spec (List.pairwise_map.mpr (ht.sorted p)) (fun _ _ => Nat.zero_le _)
      (by rw [List.length_map]; omega)).2.1
  obtain ⟨qs, hqs⟩ := insertDesc_isSome (r := s.nextRef) hfree
  exact ⟨⟨_, Option.bind_eq_some_iff.mpr ⟨N, hN, Option.bind_eq_some_iff.mpr ⟨qs, hqs, rfl⟩⟩⟩, hfree⟩

/-- The number is 0 if that is free. -/
theorem nextDesc_mgr (hc : s.ctxMgr (L.ctxOf p) = some n)
    (h0 : ∀ r ∈ s.refsByDesc p, s.descOf r ≠ 0) : s.nextDesc L p n = 0 := by
  simp only [RefState.nextDesc, hc, if_true]
  cases hr : s.refsByDesc p with
  | nil => rfl
  | cons r rs =>
    have hpos : 0 < s.descOf r := Nat.pos_of_ne_zero (h0 r (hr ▸ List.mem_cons_self))
    simp [freeDesc, hpos]

/-! ## Both commands -/

/-- What a new reference leaves as it is. -/
theorem addRef_same (ht : Tables s) (hu : Unlisted s) (hnone : s.getRefForNode p n = none)
    (hN : s.node n = some N) (ha : s.addRef L p n = some s₁) : Tables s₁ ∧ Unlisted s₁ ∧ SameCounts s s₁ ∧
      s₁.ref s.nextRef = some ⟨p, s.nextDesc L p n, n, 0, 0⟩ ∧
      s₁.node n = some { N with refs := s.nextRef :: N.refs } := by
  refine ⟨ht.addRef hnone ha, ?_⟩
  obtain ⟨K, qs, hK, -, rfl⟩ := addRef_eq ha
  obtain rfl : N = K := Option.some.inj (hN.symm.trans hK)
  refine ⟨?_, ⟨fun k b => ?_, fun m => ?_⟩, Function.update_self .., Function.update_self ..⟩
  · exact hu.update hN rfl rfl fun _ hw => hw
  · by_cases hk : k = s.nextRef
    · subst hk
      simp only [RefState.countOf, RefState.setRef, Function.update_self, ht.freshRef]
      cases b <;> rfl
    · simp only [RefState.countOf, RefState.setRef, Function.update_of_ne hk, RefState.setNode]
  · exact countersOf_update { N with refs := s.nextRef :: N.refs } hN rfl rfl m

/-- The thread and the lock of a command are as free as before it. -/
theorem env_ready (h : s'.env = s.env) (hx : s.idle L x = true) (ho : s.outerFree p = true) :
    s'.idle L x = true ∧ s'.outerFree p = true := by
  simp only [RefState.env, Prod.mk.injEq] at h
  obtain ⟨-, hclosed, -, hdead, -, htasks, -⟩ := h
  exact ⟨by rwa [RefState.idle, hclosed, hdead, htasks], by rwa [RefState.outerFree, htasks]⟩

/-- `BC_DECREFS` or `BC_RELEASE`. -/
theorem refCommand_dec (hx : s.idle L x = true) (ho : s.outerFree (L.procOf x) = true) :
    s.refCommand L x desc false strong alloc = s.updateRefForHandle L (L.procOf x) desc false strong := by
  simp [RefState.refCommand, guard, hx, ho]

/-- `BC_INCREFS` or `BC_ACQUIRE` of a handle that is not for the context manager. -/
theorem refCommand_inc (hx : s.idle L x = true) (ho : s.outerFree (L.procOf x) = true)
    (hd : desc ≠ 0) :
    s.refCommand L x desc true strong alloc = s.updateRefForHandle L (L.procOf x) desc true strong := by
  simp [RefState.refCommand, guard, hx, ho, hd]

/-- `BC_INCREFS` or `BC_ACQUIRE` of handle 0. -/
theorem refCommand_mgr (strong alloc : Bool) (hx : s.idle L x = true) (ho : s.outerFree (L.procOf x) = true)
    (hc : s.ctxFree (L.ctxOf (L.procOf x)) = true) (hm : s.ctxMgr (L.ctxOf (L.procOf x)) = some n)
    (hN : s.node n = some N) (hp : N.proc ≠ some (L.procOf x)) :
    s.refCommand L x 0 true strong alloc = (s.incRefForNode L (L.procOf x) n strong none alloc).bind
      fun y => if y.1 then some (true, y.2) else y.2.updateRefForHandle L (L.procOf x) 0 true strong := by
  simp [RefState.refCommand, guard, hx, ho, hc, hm, hN, hp]

/-- What the increment of the reference to the context manager does: it goes to the reference `r`. -/
theorem incRefForNode_mgr (strong alloc : Bool) (h : (refSys L).Reach s) (hm : s.ctxMgr (L.ctxOf p) = some n)
    (hN : s.node n = some N) :
    (∀ r, s.getRefForNode p n = some r → ∃ R s₁, s.ref r = some R ∧ R.proc = p ∧
        s.incRef L r strong none = some (true, s₁) ∧
        s.incRefForNode L p n strong none alloc = some (true, s₁)) ∧
      (s.getRefForNode p n = none → (alloc = false ∧
        s.incRefForNode L p n strong none alloc = some (false, s)) ∨
        (alloc = true ∧ (s.refsByDesc p).length = 2 ^ 32 ∧ s.incRefForNode L p n strong none alloc = none) ∨
        (alloc = true ∧ (s.refsByDesc p).length < 2 ^ 32 ∧ ∃ s₀ s₁, s.addRef L p n = some s₀ ∧
          s₀.incRef L s.nextRef strong none = some (true, s₁) ∧
          s.nextDesc L p n ∉ (s.refsByDesc p).map s.descOf ∧
          s.incRefForNode L p n strong none alloc = some (true, s₁))) := by
  obtain ⟨hg, -, -⟩ := locked_of_reach h
  have hcan := canInc_mgr h hm hN strong
  refine ⟨fun r hr => ?_, fun hnone => ?_⟩
  · obtain ⟨R, hR, hp, hRn⟩ := getRefForNode_some hg.tables hr
    subst hRn
    obtain ⟨s₁, hs₁⟩ : ∃ s₁, s.incRef L r strong none = some (true, s₁) := by
      by_cases hz : R.count strong = 0
      · obtain ⟨s₁, hs₁⟩ := incRef_zero L none hR hz hN
        exact ⟨s₁, by rw [hs₁, hcan]⟩
      · have hz' : (if strong = true then R.strong else R.weak) ≠ 0 := hz
        exact ⟨_, by simp only [RefState.incRef, hR, bind, Option.bind_some, hz', if_false]; rfl⟩
    refine ⟨R, s₁, hR, hp, hs₁, ?_⟩
    simp only [RefState.incRefForNode, hr, hs₁]
  · cases alloc with
    | false => exact .inl ⟨rfl, by simp [RefState.incRefForNode, hnone]⟩
    | true =>
      refine .inr ?_
      rcases (length_refs (p := p) hg.tables hg.descs).eq_or_lt with hlen | hlen
      · refine .inl ⟨rfl, hlen, ?_⟩
        have hused := desc_used hg.tables hg.descs hlen (nextDesc_lt (L := L) (p := p) (n := n) (s := s))
        have hadd : s.addRef L p n = none := by
          cases ha : s.addRef L p n with
          | none => rfl
          | some s₀ =>
            obtain ⟨M, qs, -, hqs, -⟩ := addRef_eq ha
            rw [insertDesc_none (hg.tables.sorted p) hused] at hqs
            cases hqs
        simp [RefState.incRefForNode, hnone, hadd]
      · obtain ⟨⟨s₀, hs₀⟩, hfree⟩ := addRef_mgr hg.tables hm hN hlen
        obtain ⟨⟨s₁, hs₁⟩, -⟩ := incRef_new strong none hN hs₀
        rw [hcan] at hs₁
        refine .inr ⟨rfl, hlen, s₀, s₁, hs₀, hs₁, hfree, ?_⟩
        simp [RefState.incRefForNode, hnone, hs₀, hs₁]

/-- The second command undoes the first one, whenever that succeeds. -/
def Undoes (L : Layout) (s : RefState) (x : ThreadId) (desc : Nat) (strong alloc : Bool) : Prop :=
  ∀ s₁, s.refCommand L x desc true strong alloc = some (true, s₁) →
    ∃ s₂, s₁.refCommand L x desc false strong alloc = some (true, s₂) ∧ SameCounts s s₂

/-- Where the first command increments the reference of the handle. -/
theorem undoes_update_iff (h : (refSys L).Reach s) (hx : s.idle L x = true)
    (ho : s.outerFree (L.procOf x) = true)
    (hcmd : s.refCommand L x desc true strong alloc = s.updateRefForHandle L (L.procOf x) desc true strong) :
    Undoes L s x desc strong alloc ↔
      ∀ r, s.getRef (L.procOf x) desc strong = some r → ¬ Wraps L s r strong := by
  obtain ⟨hg, -, hk⟩ := locked_of_reach h
  have ht := hg.tables
  rw [Undoes, hcmd]
  cases hr : s.getRef (L.procOf x) desc strong with
  | none =>
    have hnone : s.updateRefForHandle L (L.procOf x) desc true strong = some (false, s) := by
      simp [RefState.updateRefForHandle, hr]
    refine iff_of_true (fun s₁ hs₁ => ?_) fun r hr => ?_
    · rw [hnone] at hs₁
      cases hs₁
    · cases hr
  | some r =>
    obtain ⟨R, hR, hp, hd, -⟩ := getRef_some ht hr
    have hinc : s.updateRefForHandle L (L.procOf x) desc true strong = s.incRef L r strong none := by
      simp [RefState.updateRefForHandle, hr]
    have back {s₁ : RefState} (hi : s.incRef L r strong none = some (true, s₁)) :
        (∃ s₂, s₁.refCommand L x desc false strong alloc = some (true, s₂) ∧ SameCounts s s₂) ↔
          ¬ Wraps L s r strong := by
      obtain ⟨hx₁, ho₁⟩ := env_ready (incRef_env hi) hx ho
      rw [refCommand_dec hx₁ ho₁, ← hp, ← hd]
      exact updateRef_undone_iff ht hk.unlisted hR hi
    simp only [hinc, Option.some.injEq, forall_eq']
    constructor
    · intro hun hw
      obtain ⟨s₁, hs₁⟩ := hw.incRef
      exact (back hs₁).mp (hun s₁ hs₁) hw
    · exact fun hw s₁ hs₁ => (back hs₁).mpr hw

/-- The command on handle 0, where there is a context manager of another process. -/
theorem undoes_mgr_iff (h : (refSys L).Reach s) (hx : s.idle L x = true)
    (ho : s.outerFree (L.procOf x) = true) (hc : s.ctxFree (L.ctxOf (L.procOf x)) = true)
    (hm : s.ctxMgr (L.ctxOf (L.procOf x)) = some n) (hN : s.node n = some N)
    (hp : N.proc ≠ some (L.procOf x)) :
    Undoes L s x 0 strong alloc ↔ Agrees L s (L.procOf x) alloc ∧
      ∀ r, s.refTarget L (L.procOf x) 0 strong alloc = some r → ¬ Wraps L s r strong := by
  obtain ⟨hg, -, hk⟩ := locked_of_reach h
  have ht := hg.tables
  have hcmd := refCommand_mgr strong alloc hx ho hc hm hN hp
  have hmgr := incRefForNode_mgr strong alloc h hm hN
  -- the increment goes to the reference `r`, which is in the state `s₀`
  have goes {s₀ s₁ : RefState} {r : RefId} {R : Ref}
      (hcall : s.refCommand L x 0 true strong alloc = some (true, s₁))
      (ht₀ : Tables s₀) (hu₀ : Unlisted s₀) (hsame : SameCounts s s₀) (henv : s₀.env = s.env)
      (hR : s₀.ref r = some R) (hRp : R.proc = L.procOf x) (hi : s₀.incRef L r strong none = some (true, s₁)) :
      Undoes L s x 0 strong alloc ↔ R.desc = 0 ∧ ¬ Wraps L s₀ r strong := by
    obtain ⟨hx₁, ho₁⟩ := env_ready ((incRef_env hi).trans henv) hx ho
    have hun : Undoes L s x 0 strong alloc ↔ ∃ s₂,
        s₁.updateRefForHandle L R.proc 0 false strong = some (true, s₂) ∧ SameCounts s₀ s₂ := by
      rw [Undoes, hcall, hRp]
      simp only [Option.some.injEq, Prod.mk.injEq, true_and, forall_eq', refCommand_dec hx₁ ho₁]
      exact exists_congr fun s₂ => and_congr_right fun _ => ⟨hsame.symm.trans, hsame.trans⟩
    rw [hun]
    by_cases hd : R.desc = 0
    · rw [← updateRef_undone_iff ht₀ hu₀ hR hi, hd]
      simp
    · refine iff_of_false ?_ fun h => hd h.1
      rintro ⟨s₂, hs₂, hsame₂⟩
      exact updateRef_kept ht₀ hR hd hi hs₂ hsame₂
  have agrees : Agrees L s (L.procOf x) alloc ↔ match s.getRefForNode (L.procOf x) n with
      | some r => s.descOf r = 0
      | none => alloc = false ∨ (∀ r ∈ s.refsByDesc (L.procOf x), s.descOf r ≠ 0) ∨
          (s.refsByDesc (L.procOf x)).length = 2 ^ 32 := by
    refine ⟨fun ha => ha n N hm hN hp, fun ha m M hm' hM _ => ?_⟩
    rw [hm] at hm'
    cases hm'
    exact ha
  have target : s.refTarget L (L.procOf x) 0 strong alloc = match s.getRefForNode (L.procOf x) n with
      | some r => some r
      | none => if alloc then none else s.getRef (L.procOf x) 0 strong := by
    simp [RefState.refTarget, hm, hN, hp]
  rw [agrees, target]
  cases hr : s.getRefForNode (L.procOf x) n with
  | some r =>
    obtain ⟨R, s₁, hR, hRp, hi, hcall⟩ := hmgr.1 r hr
    simp only [descOf_some hR, Option.some.injEq, forall_eq']
    exact goes (by rw [hcmd, hcall]; rfl) ht hk.unlisted (.refl s) rfl hR hRp hi
  | none =>
    rcases hmgr.2 hr with ⟨rfl, hcall⟩ | ⟨rfl, hlen, hcall⟩ | ⟨rfl, hlen, s₀, s₁, ha, hi, hfree, hcall⟩
    · simp only [true_or, true_and, Bool.false_eq_true, if_false]
      exact undoes_update_iff h hx ho (by rw [hcmd, hcall]; rfl)
    · refine iff_of_true (fun s₁ hs₁ => ?_) ⟨.inr (.inr hlen), by simp⟩
      rw [hcmd, hcall] at hs₁
      cases hs₁
    · obtain ⟨ht₀, hu₀, hsame, hR, hN₀⟩ := addRef_same ht hk.unlisted hr hN ha
      obtain ⟨hs, -⟩ := mgrTold_of_reach h _ n N hm hN
      obtain ⟨K, q, hK, hKp, -⟩ := (local_of_reach h).2.mgr _ n hm
      rw [hN] at hK
      cases hK
      have hno : ¬ Wraps L s₀ s.nextRef strong :=
        not_wraps_of_told hR hN₀ (by cases strong <;> exact (by decide : (0 : Int32) ≠ -1))
          (by simp [hKp]) hs
      rw [goes (by rw [hcmd, hcall]; rfl) ht₀ hu₀ hsame (addRef_env ha) hR rfl hi]
      simp only [hno, not_false_eq_true, and_true, if_true, reduceCtorEq, false_implies, implies_true]
      constructor
      · intro hd
        refine .inr (.inl fun r hr h0 => hfree ?_)
        exact List.mem_map.mpr ⟨r, hr, h0.trans hd.symm⟩
      · rintro (hf | h0 | hf)
        · cases hf
        · exact nextDesc_mgr hm h0
        · omega

theorem undoes_iff (h : (refSys L).Reach s) (hx : s.idle L x = true)
    (ho : s.outerFree (L.procOf x) = true) (hc : s.ctxFree (L.ctxOf (L.procOf x)) = true)
    (desc : Nat) (strong alloc : Bool) :
    Undoes L s x desc strong alloc ↔ (desc = 0 → Agrees L s (L.procOf x) alloc) ∧
      ∀ r, s.refTarget L (L.procOf x) desc strong alloc = some r → ¬ Wraps L s r strong := by
  by_cases hd : desc = 0
  swap
  · have htarget : s.refTarget L (L.procOf x) desc strong alloc = s.getRef (L.procOf x) desc strong := by
      simp [RefState.refTarget, hd]
    rw [htarget, undoes_update_iff h hx ho (refCommand_inc hx ho hd)]
    simp [hd]
  subst hd
  simp only [forall_const]
  cases hm : s.ctxMgr (L.ctxOf (L.procOf x)) with
  | none =>
    have htarget : s.refTarget L (L.procOf x) 0 strong alloc = s.getRef (L.procOf x) 0 strong := by
      simp [RefState.refTarget, hm]
    rw [htarget, undoes_update_iff h hx ho (by simp [RefState.refCommand, guard, hx, ho, hc, hm])]
    exact (and_iff_right fun n N hn => by rw [hm] at hn; cases hn).symm
  | some n =>
    obtain ⟨N, -, hN, -⟩ := (local_of_reach h).2.mgr _ n hm
    by_cases hp : N.proc = some (L.procOf x)
    · refine iff_of_true (fun s₁ hs₁ => ?_) ⟨fun m M hm' hM hne => ?_, fun r hr => ?_⟩
      · simp [RefState.refCommand, guard, hx, ho, hc, hm, hN, hp] at hs₁
      · rw [hm] at hm'
        cases hm'
        rw [hN] at hM
        cases hM
        exact absurd hp hne
      · simp [RefState.refTarget, hm, hN, hp] at hr
    · exact undoes_mgr_iff h hx ho hc hm hN hp

/-- `BC_RELEASE` (`BC_DECREFS`) after a `BC_ACQUIRE` (`BC_INCREFS`) of the same handle that succeeds
gives all counts back, just if the handle is not 0 or the increment of handle 0 goes to the reference
with the number 0, and the count does not wrap. In a run without an overflow none does. -/
theorem release_undoes_iff (L : Layout) :
    (∀ s x desc strong alloc, (refSys L).Reach s → s.idle L x = true →
      s.outerFree (L.procOf x) = true → s.ctxFree (L.ctxOf (L.procOf x)) = true →
      (Undoes L s x desc strong alloc ↔ (desc = 0 → Agrees L s (L.procOf x) alloc) ∧
        ∀ r, s.refTarget L (L.procOf x) desc strong alloc = some r → ¬ Wraps L s r strong)) ∧
    (∀ s r strong, (refSys L).ReachIf (fun s op => s.overflows op = false) s → ¬ Wraps L s r strong) :=
  ⟨fun _ _ desc strong alloc h hx ho hc => undoes_iff h hx ho hc desc strong alloc,
    fun _ _ _ h => not_wraps_of_reachIf h⟩

/-- The process 1 acquires the context manager of the process 0, which exits, and the process 2 becomes
the context manager. -/
def replaceMgr : List RefOp :=
  acquireMgr ++ .close 0 :: List.replicate 9 (.run 2 true) ++ [.setCtxMgr 2 5 5, .run 3 true, .run 3 true]

/-- The state after it. -/
def afterReplace : RefState :=
  (Sys.execIf (RefState.exec oneThread) (fun _ _ => True) start replaceMgr).get (by decide)

theorem reach_afterReplace : (refSys oneThread).ReachIf (fun s op => s.overflows op = false) afterReplace :=
  Sys.ReachIf.execIf (.init rfl) (show Sys.execIf _ (fun s op => s.overflows op = false) start replaceMgr =
    some afterReplace from rfl)

/-- A process without a reference to the old context manager can acquire and release handle 0. -/
theorem release_afterReplace : Undoes oneThread afterReplace 3 0 true true :=
  ((release_undoes_iff oneThread).1 afterReplace 3 0 true true reach_afterReplace.reach (by decide)
    (by decide) (by decide)).mpr ⟨fun _ n N hn hN _ => by
      have hn' : n = 1 := Option.some.inj (hn.symm.trans (rfl : afterReplace.ctxMgr 0 = some 1))
      subst hn'
      exact .inr (.inl (by decide)),
    fun r _ => (release_undoes_iff oneThread).2 afterReplace r true reach_afterReplace⟩

/-- The state after `BC_ACQUIRE` of handle 0 by the process 1: it goes to the new context manager. -/
def afterStray : RefState := ((afterReplace.refCommand oneThread 1 0 true true true).get (by decide)).2

/-- `BC_RELEASE` of handle 0 goes to the old context manager. -/
theorem release_strays : ¬ ∀ L s x desc strong alloc, (refSys L).Reach s → s.idle L x = true →
    s.outerFree (L.procOf x) = true → s.ctxFree (L.ctxOf (L.procOf x)) = true →
    Undoes L s x desc strong alloc := by
  intro h
  have hcall : afterReplace.refCommand oneThread 1 0 true true true = some (true, afterStray) := by
    have h1 : ((afterReplace.refCommand oneThread 1 0 true true true).get (by decide)).1 = true := by decide
    exact (Option.some_get _).symm.trans (congrArg some (Prod.ext h1 rfl))
  obtain ⟨s₂, hs₂, hsame⟩ := h oneThread afterReplace 1 0 true true reach_afterReplace.reach
    (by decide) (by decide)
    (by decide) afterStray hcall
  have hone : (afterStray.refCommand oneThread 1 0 false true true).all fun y => y.2.countOf 1 true == 1 := by
    decide
  rw [hs₂] at hone
  have hold : afterReplace.countOf 1 true = 0 := by decide
  have := hsame.1 1 true
  rw [hold] at this
  simp [this] at hone

end Redroid.Binder.Refs
