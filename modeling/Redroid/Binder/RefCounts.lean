import Redroid.Binder.RefTables

/-!
# The counts of the references

`node->internal_strong_refs` counts the strong references on `node->refs`, as long as no count of a
reference has wrapped: the counts are `int`, and `binder_inc_ref_olocked` increments them unchecked.

* `Node.excess`: how much the counter is above the references with a strong count. A step changes it
  only where a count wraps to 0, and then it goes up: `Excess P` is kept for such a `P`.
* `RefState.incremented`: the count that a step increments; `RefState.overflows`: it is `INT_MAX`.
* `refTables_agree`: the tables agree in all runs, and the counter in every run without an overflow.
* `raised`: the context manager's reference after any number of `BC_ACQUIRE`.
-/

namespace Redroid.Binder.Refs

open RefState

/-- The reference that a step increments, and which count of it. -/
def RefState.incremented (s : RefState) : RefOp → Option (RefId × Bool)
  | .run i _ =>
    match s.tasks[i]? with
    | some ⟨_, .incRef _ p n strong _ :: _⟩ | some ⟨_, .newRef _ p n strong _ :: _⟩ =>
      (s.getRefForNode p n).map (·, strong)
    | some ⟨_, .incNewRef _ _ _ r strong _ :: _⟩ => some (r, strong)
    | some ⟨_, .updateRef p desc true strong :: _⟩ => (s.getRef p desc strong).map (·, strong)
    | _ => none
  | _ => none

/-- The step increments a count that is `INT_MAX`. -/
def RefState.overflows (s : RefState) (op : RefOp) : Bool :=
  (s.incremented op).any fun (r, strong) => (s.ref r).any fun R => R.count strong == Int32.maxValue

/-- `internal_strong_refs` of the node, less the references on its list that have a strong count. -/
def Node.excess (s : RefState) (N : Node) : Int :=
  N.internalStrongRefs - (N.refs.countP fun r => s.strongOf r != 0 : Nat)

/-- The excess of every node has the property `P`. -/
def Excess (P : Int → Prop) (s : RefState) : Prop := ∀ n N, s.node n = some N → P (N.excess s)

/-- No count is negative. -/
def NonNeg (s : RefState) : Prop := ∀ r R, s.ref r = some R → ∀ strong, 0 ≤ R.count strong

variable {L : Layout} {s s' : RefState} {n : NodeId} {N : Node} {p : ProcId} {r : RefId} {R : Ref}
  {i : Nat} {a : Actor} {act : Act} {rest : List Act} {op : RefOp} {strong ok : Bool}
  {list : Option ThreadId} {P : Int → Prop}

theorem Raises.incremented (h : Raises s r strong list act) (ht : s.tasks[i]? = some ⟨a, act :: rest⟩) :
    s.incremented (.run i ok) = some (r, strong) := by
  cases h with
  | found hact hr =>
    rcases hact with rfl | rfl
    · simp [RefState.incremented, ht, hr]
    · simp [RefState.incremented, ht, hr]
  | new => simp [RefState.incremented, ht]
  | update hr _ => simp [RefState.incremented, ht, hr]

theorem Ref.count_setCount {k : Int32} {b : Bool} :
    (R.setCount strong k).count b = if b = strong then k else R.count b := by
  cases strong <;> cases b <;> rfl

/-! ## The excess -/

namespace Excess

theorem start : Excess P start := fun _ _ h => by cases h

/-- The references of the node are those of an old one, with the same counts. -/
theorem of_old {m : NodeId} {M : Node} (h : Excess P s) (hM : s.node m = some M)
    (hrefs : N.refs = M.refs) (hi : N.internalStrongRefs = M.internalStrongRefs)
    (hof : ∀ q ∈ M.refs, s'.strongOf q = s.strongOf q) : P (N.excess s') := by
  have hcount : N.refs.countP (fun r => s'.strongOf r != 0) = M.refs.countP fun r => s.strongOf r != 0 := by
    rw [hrefs]
    exact List.countP_congr fun q hq => by rw [hof q hq]
  rw [Node.excess, hi, hcount]
  exact h m M hM

theorem same (h : Excess P s) (h0 : P 0) (hs : SameRefs s s') : Excess P s' := by
  intro n N' hN'
  have hstrong (r : RefId) : s'.strongOf r = s.strongOf r := by simp [RefState.strongOf, hs.ref]
  rcases hs.node hN' with ⟨N, hN, hrefs, hi⟩ | ⟨-, -, hrefs, hi⟩
  · exact h.of_old hN hrefs hi fun q _ => hstrong q
  · rw [Node.excess, hrefs, hi]
    exact h0

/-- The counts of one reference change, and its node with them. -/
theorem turn (h : Excess P s) (ht : Tables s) (R' : Ref) (N' : Node) (hR : s.ref r = some R)
    (hN : s.node R.node = some N) (hrefs : N'.refs = N.refs)
    (hP : P (N.excess s) → P (N.excess s + (N'.internalStrongRefs - N.internalStrongRefs) +
      ((R.strong != 0).toNat - (R'.strong != 0).toNat))) :
    Excess P ((s.setNode R.node N').setRef r R') := by
  obtain ⟨s', hs'⟩ : ∃ s', s' = (s.setNode R.node N').setRef r R' := ⟨_, rfl⟩
  rw [← hs']
  have href (q : RefId) : s'.ref q = if q = r then some R' else s.ref q := by
    simp [hs', RefState.setRef, RefState.setNode, Function.update_apply]
  have hof {q : RefId} (hne : q ≠ r) : s'.strongOf q = s.strongOf q := by
    simp [RefState.strongOf, href, hne]
  intro m M' hM'
  have hnode : s'.node m = if m = R.node then some N' else s.node m := by
    simp [hs', RefState.setRef, RefState.setNode, Function.update_apply]
  rw [hnode] at hM'
  split at hM'
  · cases hM'
    obtain ⟨M, hM, hmem⟩ := ht.onNode r R hR
    obtain rfl : M = N := Option.some.inj (hM.symm.trans hN)
    have hold : s.strongOf r = R.strong := by simp [RefState.strongOf, hR]
    have hnew : s'.strongOf r = R'.strong := by simp [RefState.strongOf, href]
    have hturn := countP_turn (f := fun q => s.strongOf q != 0) (g := fun q => s'.strongOf q != 0)
      (ht.refsNodup _ M hN) hmem fun q hne => by rw [hof hne]
    simp only [hold, hnew] at hturn
    have hx : N'.excess s' = M.excess s + (N'.internalStrongRefs - M.internalStrongRefs) +
        ((R.strong != 0).toNat - (R'.strong != 0).toNat) := by
      rw [Node.excess, Node.excess, hrefs]
      omega
    rw [hx]
    exact hP (h _ M hN)
  · rename_i hne
    refine h.of_old hM' rfl rfl fun q hq => hof ?_
    rintro rfl
    obtain ⟨Q, hQ, hQn⟩ := ht.ofNode m M' q hM' hq
    rw [hR] at hQ
    cases hQ
    exact hne hQn.symm

/-- An increment: where the count wraps to 0, the node keeps an internal reference too many. -/
theorem incRef (h : Excess P s) (ht : Tables s) (hi : s.incRef L r strong list = some (ok, s'))
    (hwrap : ∀ R k, s.ref r = some R → R.count strong = -1 → P k → P (k + 1)) : Excess P s' := by
  obtain ⟨R, hR, ⟨-, -, rfl⟩ | ⟨-, hc, rfl⟩ | ⟨-, hc, N, hN, hok, rfl⟩⟩ := incRef_cases hi
  · exact h
  · obtain ⟨N, hN, -⟩ := ht.onNode r R hR
    have := h.turn ht (R.setCount strong (R.count strong + 1)) N hR hN rfl fun hP => ?_
    · simpa [RefState.setNode, ← hN] using this
    · cases strong with
      | false => simpa [Ref.setCount_strong] using hP
      | true =>
        have hne : (R.strong != 0) = true := bne_iff_ne.mpr hc
        by_cases hz : R.count true + 1 = 0
        · have hneg : R.count true = -1 := by grind
          simpa [Ref.setCount_strong, hz, hne] using hwrap R _ hR hneg hP
        · simpa [Ref.setCount_strong, bne_iff_ne.mpr hz, hne] using hP
  · obtain ⟨w, hw, -⟩ := Node.inc_succeeds hok
    refine h.turn ht _ _ hR hN ?_ fun hP => ?_
    · rw [hw]
      cases strong <;> rfl
    · rw [hw]
      cases strong with
      | false => simpa [Ref.setCount_strong, Node.bump] using hP
      | true =>
        have hz : R.strong = 0 := hc
        have hone : (R.count true + 1 != 0) = true := by rw [hc]; rfl
        simpa [Ref.setCount_strong, hz, hone, Node.bump] using hP

theorem decRef {last : Bool} (h : Excess P s) (ht : Tables s)
    (hd : s.decRef r strong = some (last, s')) : Excess P s' := by
  obtain ⟨R, hR, ⟨-, rfl, -⟩ | ⟨hc, -, hne, rfl⟩ | ⟨hc, -, rfl, N, hN, rfl⟩⟩ :=
    decRef_cases hd fun R hR => ht.onNode r R hR
  · exact h
  · obtain ⟨N, hN, -⟩ := ht.onNode r R hR
    have := h.turn ht (R.setCount strong (R.count strong - 1)) N hR hN rfl fun hP => ?_
    · simpa [RefState.setNode, ← hN] using this
    · cases strong with
      | false => simpa [Ref.setCount_strong] using hP
      | true =>
        have h1 : (R.strong != 0) = true := bne_iff_ne.mpr hc
        have h2 : (R.count true - 1 != 0) = true := bne_iff_ne.mpr (by have := hne rfl; grind)
        simpa [Ref.setCount_strong, h1, h2] using hP
  · obtain ⟨w, hw, -⟩ := N.dec_eq true true
    refine h.turn ht _ _ hR hN ?_ fun hP => ?_
    · rw [hw]
      rfl
    · have h1 : R.strong = 1 := hc
      have h2 : R.count true - 1 = 0 := by rw [hc]; rfl
      rw [hw]
      simpa [Ref.setCount_strong, h1, h2, Node.drop] using hP

/-- The reference `r` goes: the node that loses it is freed or gets the fields of `N'`. -/
theorem dropRef {o : Option Node} (h : Excess P s) (ht : Tables s) (hR : s.ref r = some R)
    (hN : s.node R.node = some N) (href : s'.ref = Function.update s.ref r none)
    (hnode : s'.node = Function.update s.node R.node o)
    (ho : ∀ N', o = some N' → N'.refs = N.refs.erase r ∧
      N'.internalStrongRefs = N.internalStrongRefs - (R.strong != 0).toNat) : Excess P s' := by
  obtain ⟨M, hM, hmem⟩ := ht.onNode r R hR
  obtain rfl : M = N := Option.some.inj (hM.symm.trans hN)
  have hof {q : RefId} (hq : q ≠ r) : s'.strongOf q = s.strongOf q := by
    simp [RefState.strongOf, href, hq]
  intro m M' hm
  rw [hnode, Function.update_apply] at hm
  split at hm
  · rename_i he
    subst he
    obtain ⟨hrefs, hi⟩ := ho M' hm
    have hcongr : (M.refs.erase r).countP (fun q => s'.strongOf q != 0) =
        (M.refs.erase r).countP fun q => s.strongOf q != 0 :=
      List.countP_congr fun q hq => by rw [hof ((ht.refsNodup _ M hN).mem_erase_iff.mp hq).1]
    have hold : s.strongOf r = R.strong := by simp [RefState.strongOf, hR]
    have hperm := (List.perm_cons_erase hmem).countP_eq fun q => s.strongOf q != 0
    rw [List.countP_cons, hold] at hperm
    have hx : M'.excess s' = M.excess s := by
      rw [Node.excess, Node.excess, hrefs, hi, hcongr, hperm]
      cases R.strong != 0
      · simp
      · simp only [Bool.toNat_true, if_true]
        omega
    rw [hx]
    exact h _ M hN
  · rename_i hne
    refine h.of_old hm rfl rfl fun q hq => hof ?_
    rintro rfl
    obtain ⟨Q, hQ, hQn⟩ := ht.ofNode m M' q hm hq
    rw [hR] at hQ
    cases hQ
    exact hne hQn.symm

theorem cleanupRef (h : Excess P s) (ht : Tables s) (hc : s.cleanupRef r = some s') : Excess P s' := by
  obtain ⟨R, N, w, hR, hN, -, ⟨-, rfl⟩ | ⟨hf, rfl⟩⟩ :=
    cleanupRef_cases hc fun R hR => ht.onNode r R hR
  · obtain ⟨w', hw', -⟩ := (N.unref r (R.strong != 0) w).dec_eq false true
    refine h.dropRef ht hR hN rfl rfl ?_
    rintro N' hN'
    cases hN'
    rw [hw']
    refine ⟨by simp [Node.drop, Node.unref], ?_⟩
    cases R.strong != 0 <;> simp [Node.drop, Node.unref]
  · exact h.dropRef (o := none) ht hR hN rfl rfl fun _ h => by cases h

theorem addRef (h : Excess P s) (ht : Tables s) (ha : s.addRef L p n = some s') : Excess P s' := by
  obtain ⟨N, qs, hN, -, hs'⟩ := addRef_eq ha
  have href (q : RefId) : s'.ref q =
      if q = s.nextRef then some ⟨p, s.nextDesc L p n, n, 0, 0⟩ else s.ref q := by
    simp [hs', RefState.setRef, RefState.setNode, Function.update_apply]
  have hof {m : NodeId} {M : Node} (hM : s.node m = some M) {q : RefId} (hq : q ∈ M.refs) :
      s'.strongOf q = s.strongOf q := by
    obtain ⟨Q, hQ, -⟩ := ht.ofNode m M q hM hq
    have hne : q ≠ s.nextRef := by
      rintro rfl
      rw [ht.freshRef] at hQ
      cases hQ
    simp [RefState.strongOf, href, hne]
  intro m M' hm
  have hnode : s'.node m = if m = n then some { N with refs := s.nextRef :: N.refs } else s.node m := by
    simp [hs', RefState.setRef, RefState.setNode, Function.update_apply]
  rw [hnode] at hm
  split at hm
  · cases hm
    have hr0 : s'.strongOf s.nextRef = 0 := by simp [RefState.strongOf, href]
    have hx : P (N.excess s') := h.of_old hN rfl rfl fun q hq => hof hN hq
    simpa [Node.excess, List.countP_cons, hr0] using hx
  · exact h.of_old hm rfl rfl fun q hq => hof hm hq

/-- A step keeps the property, if it is one of 0, and of what comes up where a count wraps. -/
theorem exec (h : Excess P s) (h0 : P 0) (ht : Tables s) (he : s.exec L op = some s')
    (hwrap : ∀ r strong R k, s.incremented op = some (r, strong) → s.ref r = some R →
      R.count strong = -1 → P k → P (k + 1)) : Excess P s' := by
  cases exec_refStep he ht.fresh with
  | same hs _ => exact h.same h0 hs
  | inc hi hr hinc hs =>
    exact (h.incRef ht hinc fun R k hR => hwrap _ _ R k (hr.incremented hi) hR).same h0 hs
  | dec _ _ hdec hs _ => exact (h.decRef ht hdec).same h0 hs
  | add _ _ hadd hs _ => exact (h.addRef ht hadd).same h0 hs
  | remove _ _ hrem hs => exact (h.cleanupRef ht hrem).same h0 hs

/-- The excess of a node is never negative. -/
theorem nonneg_incRef (h : Excess (0 ≤ ·) s) (ht : Tables s)
    (hi : s.incRef L r strong list = some (ok, s')) : Excess (0 ≤ ·) s' :=
  h.incRef ht hi fun _ _ _ _ hk => by omega

theorem nonneg_exec (h : Excess (0 ≤ ·) s) (ht : Tables s) (he : s.exec L op = some s') :
    Excess (0 ≤ ·) s' :=
  h.exec (le_refl 0) ht he fun _ _ _ _ _ _ _ hk => by omega

/-- Then an internal reference is held for each strong one. -/
theorem le_internal (h : Excess (0 ≤ ·) s) (hN : s.node n = some N) :
    (N.refs.countP fun r => s.strongOf r != 0 : Nat) ≤ N.internalStrongRefs := by
  have := h n N hN
  rw [Node.excess] at this
  omega

end Excess

/-! ## Without an overflow -/

/-- A step increments no count that is `INT_MAX`. -/
theorem overflows_eq_false (h : s.overflows op = false) (hi : s.incremented op = some (r, strong))
    (hR : s.ref r = some R) : R.count strong ≠ Int32.maxValue := fun hmax => by
  simp [RefState.overflows, hi, hR, hmax] at h

theorem NonNeg.exec (h : NonNeg s) (ht : Tables s) (he : s.exec L op = some s')
    (hno : s.overflows op = false) : NonNeg s' := by
  -- the counts of one reference change
  have set {f : RefId → Option Ref} {r : RefId} {R' : Ref} (hs : f = Function.update s.ref r (some R'))
      (hR' : ∀ strong, 0 ≤ R'.count strong) (q : RefId) (Q : Ref) (hq : f q = some Q) (strong : Bool) :
      0 ≤ Q.count strong := by
    rw [hs, Function.update_apply] at hq
    split at hq
    · cases hq
      exact hR' strong
    · exact h q Q hq strong
  have change {r : RefId} {R : Ref} {strong : Bool} {k : Int32} (hR : s.ref r = some R) (hk : 0 ≤ k)
    (b : Bool) :
      0 ≤ (R.setCount strong k).count b := by
    rw [Ref.count_setCount]
    split
    · exact hk
    · exact h r R hR b
  cases exec_refStep he ht.fresh with
  | same hs _ =>
    rw [NonNeg, hs.ref]
    exact h
  | inc hi hr hinc hs =>
    obtain ⟨R, hR, hcases⟩ := incRef_cases hinc
    have hmax := overflows_eq_false hno (hr.incremented hi) hR
    have hnn := h _ R hR
    rw [NonNeg, hs.ref]
    obtain ⟨-, -, rfl⟩ | ⟨-, -, rfl⟩ | ⟨-, -, N, -, -, rfl⟩ := hcases
    · exact h
    · exact set rfl (change hR (by have := hnn ‹Bool›; grind))
    · exact set rfl (change hR (by have := hnn ‹Bool›; grind))
  | dec _ _ hdec hs _ =>
    obtain ⟨R, hR, hcases⟩ := decRef_cases hdec fun R hR => ht.onNode _ R hR
    have hnn := h _ R hR
    rw [NonNeg, hs.ref]
    obtain ⟨-, rfl, -⟩ | ⟨hc, -, -, rfl⟩ | ⟨hc, -, -, N, -, rfl⟩ := hcases
    · exact h
    · exact set rfl (change hR (by have := hnn ‹Bool›; grind))
    · exact set rfl (change hR (by rw [hc]; decide))
  | add _ _ hadd hs _ =>
    obtain ⟨N, qs, -, -, rfl⟩ := addRef_eq hadd
    rw [NonNeg, hs.ref]
    refine set rfl fun strong => ?_
    cases strong <;> exact Int32.le_refl 0
  | remove _ _ hrem hs =>
    rw [NonNeg, hs.ref]
    obtain ⟨R, N, w, -, -, -, ⟨-, rfl⟩ | ⟨-, rfl⟩⟩ := cleanupRef_cases hrem fun R hR => ht.onNode _ R hR
    all_goals
      intro q Q hq
      simp only [RefState.dropRef, RefState.setNode, RefState.freeNode, Function.update_apply] at hq
      split at hq
      · cases hq
      · exact h q Q hq

/-- What holds in a run without an overflow: no count is negative, and no node has internal references
too many. -/
theorem nonNeg_of_reachIf (h : (refSys L).ReachIf (fun s op => s.overflows op = false) s) :
    NonNeg s ∧ Excess (· = 0) s := by
  have hinv : Tables s ∧ NonNeg s ∧ Excess (· = 0) s := by
    refine h.inv (I := fun s => Tables s ∧ NonNeg s ∧ Excess (· = 0) s) ?_ ?_
    · rintro s rfl
      exact ⟨tables_start, fun r R hR => (by cases hR), .start⟩
    · rintro s op s' ⟨ht, hn, hx⟩ hc hst
      refine ⟨ht.exec hst, hn.exec ht hst hc, hx.exec rfl ht hst fun r strong R k _ hR hneg => ?_⟩
      have := hn r R hR strong
      rw [hneg] at this
      exact absurd this (by decide)
  exact hinv.2

end Redroid.Binder.Refs
