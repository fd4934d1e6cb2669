import Redroid.Binder.RefFree

/-!
# The counters of a node, and the nodes without a process

`binder_node_release` resets the local counts of a node, also those that a transaction in progress
has taken: the transaction gives them back when it fails.

* `undoesReset`: a local reference to a node without a process is given back.
* `nodeCounts_of_reachIf`: without such a step, no counter of a node is negative, and a node without
  a process, without references and temporary references is freed.
-/

namespace Redroid.Binder.Refs

open RefState

/-- The step is a `binder_dec_node(node, strong, 0)` where `node->proc` is `NULL`. -/
def undoesReset (s : RefState) : RefOp → Bool
  | .run i _ => match s.tasks[i]? with
    | some ⟨_, .decNode n _ :: _⟩ => (s.node n).any fun N => N.proc.isNone
    | _ => false
  | _ => false

/-- What holds of a node without a process. -/
structure Node.Dead (N : Node) : Prop where
  strong : N.localStrongRefs = 0
  weak : N.localWeakRefs = 0
  used : N.refs ≠ [] ∨ N.tmpRefs ≠ 0

variable {L : Layout} {s s' : RefState} {n : NodeId} {N N' : Node} {op : RefOp} {strong : Bool}

/-- A node that is not freed with its last reference has another one. -/
theorem Node.Dead.dec (hp : N.proc = none) (hs : N.localStrongRefs = 0) (hw : N.localWeakRefs = 0)
    (hf : (N.dec false true).1 = false) : (N.dec false true).2.Dead := by
  have hdrop : N.drop false true = N := rfl
  obtain ⟨w, hdec, -⟩ := N.dec_eq false true
  rw [hdec, hdrop]
  refine ⟨hs, hw, ?_⟩
  by_contra hno
  rw [not_or, not_not, not_not] at hno
  replace hno : N.refs = [] ∧ N.tmpRefs = 0 := hno
  have hheld : N.held false = false := by simp [Node.held, hw, hno.1, hno.2]
  have hunused : N.unused = true := Node.unused_iff.mpr ⟨hno.1, hs, hw, hno.2⟩
  simp [Node.dec, hdrop, hheld, hp, hunused] at hf

/-- A step leaves a node without a process as it should be, unless it gives a reset reference
back. -/
theorem dead_exec (hg : Good L s) (hl : Local L s) (he : s.exec L op = some s')
    (hc : undoesReset s op = false) (hd : ∀ n N, s.node n = some N → N.proc = none → N.Dead)
    (hN' : s'.node n = some N') (hp' : N'.proc = none) : N'.Dead := by
  rcases exec_turns hg.tables he hN' with ⟨N, hN, hturn⟩ | ⟨-, p, ptr, cookie, rfl⟩
  swap
  · cases hp'
  have hdead (hp : N.proc = none) : N.Dead := hd n N hN hp
  have alive {p : ProcId} (hp : N.proc = some p) (hpn : N.proc = none) : N'.Dead := by
    rw [hp] at hpn
    cases hpn
  -- the owner does not work on a node that it has lost
  have own {i : Nat} {a : Actor} {act : Act} {rest : List Act}
      (hi : s.tasks[i]? = some ⟨a, act :: rest⟩) (ha : ∃ x, a = .thread x) (hown : act.own = some n)
      (hpn : N.proc = none) : N'.Dead := by
    obtain ⟨x, rfl⟩ := ha
    obtain ⟨K, hK, hKp⟩ := hl.own _ (List.mem_of_getElem? hi) x rfl act List.mem_cons_self n hown
    rw [hN] at hK
    cases hK
    exact alive hKp hpn
  have htmp : 0 ≤ N.tmpRefs := by
    have := hg.tmp n
    rw [tmpOf_some hN] at this
    omega
  cases hturn with
  | same => exact hdead hp'
  | take =>
    obtain ⟨hs, hw, -⟩ := hdead hp'
    exact ⟨hs, hw, .inr (by show N.tmpRefs + 1 ≠ 0; omega)⟩
  | transaction hp => exact alive hp hp'
  | translateOwn hp =>
    rw [Node.bump_proc] at hp'
    exact alive hp hp'
  | @inc _ _ strong _ _ _ _ _ _ _ hok =>
    obtain ⟨w, hinc, -⟩ := Node.inc_succeeds hok
    rw [hinc] at hp' ⊢
    cases strong with
    | true =>
      obtain ⟨hs, hw, hu⟩ := hdead hp'
      exact ⟨hs, hw, hu⟩
    | false =>
      obtain ⟨hs, hw, hu⟩ := hdead hp'
      exact ⟨hs, hw, hu⟩
  | addRef =>
    obtain ⟨hs, hw, -⟩ := hdead hp'
    exact ⟨hs, hw, .inl (List.cons_ne_nil _ _)⟩
  | decNode hi hf =>
    rw [Node.dec_proc] at hp'
    simp [undoesReset, hi, hN, hp'] at hc
  | decRef =>
    rw [Node.dec_proc] at hp'
    obtain ⟨hs, hw, hu⟩ := hdead hp'
    obtain ⟨w, hdec, -⟩ := N.dec_eq true true
    rw [hdec]
    exact ⟨hs, hw, hu⟩
  | putNode hf =>
    rw [Node.dec_proc] at hp'
    obtain ⟨hs, hw, -⟩ := hdead hp'
    exact .dec hp' hs hw hf
  | @cleanupRef _ _ r R w _ _ _ _ hf =>
    have hproc : (N.unref r (R.strong != 0) w).proc = N.proc := by simp [Node.unref]
    rw [Node.dec_proc, hproc] at hp'
    obtain ⟨hs, hw, -⟩ := hdead hp'
    have hloc (strong : Bool) : (N.unref r (R.strong != 0) w).localRefs strong = N.localRefs strong :=
      Node.unref_localRefs
    exact .dec (hproc.trans hp') ((hloc true).trans hs) ((hloc false).trans hw) hf
  | @done _ _ _ strong _ _ _ hi =>
    have hproc : (N.clearPending strong).proc = N.proc := by cases strong <;> rfl
    rw [Node.dec_proc, hproc] at hp'
    obtain ⟨x, hx, -⟩ := (hg.shape.task _ (List.mem_of_getElem? hi)).ofDone
    exact own hi ⟨x, hx⟩ rfl hp'
  | readNode hp => exact alive hp hp'
  | becomeMgr hi =>
    obtain ⟨x, hx, -⟩ := (hg.shape.task _ (List.mem_of_getElem? hi)).ofBecomes
    exact own hi ⟨x, hx⟩ rfl hp'
  | dropWork =>
    obtain ⟨hs, hw, hu⟩ := hdead hp'
    exact ⟨hs, hw, hu⟩
  | nodeRelease hi =>
    refine ⟨rfl, rfl, .inr ?_⟩
    have hle := le_acting (f := Act.tmp n) hi List.mem_cons_self
    have := hg.tmp n
    rw [tmpOf_some hN] at this
    simp only [Act.tmp, if_true] at hle
    show N.tmpRefs ≠ 0
    omega

/-- What holds in the runs where no reset reference is given back. -/
theorem dead_of_reachIf (h : (refSys L).ReachIf (fun s op => undoesReset s op = false) s) :
    Good L s ∧ Local L s ∧ ∀ n N, s.node n = some N → N.proc = none → N.Dead := by
  refine Sys.ReachIf.inv
    (I := fun s => Good L s ∧ Local L s ∧ ∀ n N, s.node n = some N → N.proc = none → N.Dead) ?_ ?_ h
  · rintro _ rfl
    exact ⟨good_start, local_start, fun _ _ h => nomatch h⟩
  · rintro s op s' ⟨hg, hl, hd⟩ hc he
    exact ⟨hg.exec he, hl.exec hg he, fun n N' hN' hp' => dead_exec hg hl he hc hd hN' hp'⟩

/-- In a run where no local reference is given back to a node without a process, the four counters of
every node are at least 0, and a node without a process has a reference or a temporary reference. -/
theorem nodeCounts_of_reachIf (h : (refSys L).ReachIf (fun s op => undoesReset s op = false) s)
    (hN : s.node n = some N) :
    0 ≤ N.localStrongRefs ∧ 0 ≤ N.localWeakRefs ∧ 0 ≤ N.internalStrongRefs ∧ 0 ≤ N.tmpRefs ∧
      ¬ (N.proc = none ∧ N.refs = [] ∧ N.tmpRefs = 0) := by
  obtain ⟨hg, hl, hd⟩ := dead_of_reachIf h
  have hloc (strong : Bool) : 0 ≤ N.localRefs strong := by
    cases hp : N.proc with
    | none =>
      obtain ⟨hs, hw, -⟩ := hd n N hN hp
      cases strong
      · exact hw.ge
      · exact hs.ge
    | some p =>
      have hspare := hl.spare_nonneg hg.links hN hp strong
      simp only [Node.spare] at hspare
      omega
  have htmp := hg.tmp n
  rw [tmpOf_some hN] at htmp
  refine ⟨hloc true, hloc false, ?_, by omega, ?_⟩
  · exact (Int.natCast_nonneg _).trans (hg.covered.le_internal hN)
  · rintro ⟨hp, hr, ht⟩
    exact (hd n N hN hp).used.elim (· hr) (· ht)

/-- Where such a step is taken, it makes a counter negative. -/
theorem undoesReset_negative (h : (refSys L).ReachIf (fun s op => undoesReset s op = false) s)
    (hu : undoesReset s op = true) (he : s.exec L op = some s') :
    ∃ n N strong, s'.node n = some N ∧ N.localRefs strong < 0 := by
  obtain ⟨-, -, hd⟩ := dead_of_reachIf h
  cases op with
  | run i ok =>
    simp only [undoesReset] at hu
    split at hu
    · rename_i a n strong rest hi
      obtain ⟨N, hN, hp⟩ := (Option.any_eq_true ..).mp hu
      have hdead := hd n N hN (Option.isNone_iff_eq_none.mp hp)
      have hzero : N.localRefs strong = 0 := by
        cases strong
        · exact hdead.weak
        · exact hdead.strong
      obtain ⟨t, ht, he⟩ := Option.bind_eq_some_iff.mp he
      rw [hi] at ht
      cases ht
      obtain ⟨s₁, hs₁, he⟩ := Option.bind_eq_some_iff.mp he
      cases he
      obtain ⟨K, hK, ⟨-, rfl⟩ | ⟨hf, -⟩⟩ := decNode_cases hs₁
      · rw [hN] at hK
        cases hK
        refine ⟨n, _, strong, Function.update_self .., ?_⟩
        rw [dec_localRefs, hzero]
        simp
      · rw [hN] at hK
        cases hK
        have hone := dec_free_local hf strong
        rw [hzero] at hone
        simp at hone
    · cases hu
  | _ => cases hu

/-- The process 0 becomes the context manager; the process 1 starts a transaction to it; the process 0
closes, and its node is reset. -/
def resetInTransaction : List RefOp :=
  [.setCtxMgr 0 0 0, .run 0 true, .run 0 true, .transaction 1 0, .close 0, .run 2 true, .run 2 true,
    .run 2 true, .run 2 true, .run 2 true]

/-- The state after these. -/
def afterReset : RefState :=
  (Sys.execIf (RefState.exec oneThread) (fun s op => undoesReset s op = false) start
    resetInTransaction).get (by decide)

theorem reachIf_afterReset :
    (refSys oneThread).ReachIf (fun s op => undoesReset s op = false) afterReset :=
  Sys.ReachIf.execIf (.init rfl) (Option.some_get _).symm

theorem nodeCounts_afterReset : ∃ N, afterReset.node 0 = some N ∧ N.proc = none ∧ 0 ≤ N.localStrongRefs := by
  obtain ⟨N, hN⟩ := Option.isSome_iff_exists.mp (show (afterReset.node 0).isSome = true by decide)
  have hp : ∀ K, afterReset.node 0 = some K → K.proc = none := by decide
  exact ⟨N, hN, hp N hN, (nodeCounts_of_reachIf reachIf_afterReset hN).1⟩

/-- Then the transaction fails, and gives its references back. -/
def afterUndo : RefState :=
  (Sys.execIf (RefState.exec oneThread) (fun _ _ => True) afterReset
    [.run 2 true, .run 1 false, .run 1 true, .run 1 true]).get (by decide)

/-- The node of the process that has gone is left with a negative count, and is never freed. -/
theorem nodeCounts_negative : ¬ ∀ L s n N, (refSys L).Reach s → s.node n = some N →
    0 ≤ N.localStrongRefs ∧ 0 ≤ N.localWeakRefs ∧ 0 ≤ N.internalStrongRefs ∧ 0 ≤ N.tmpRefs ∧
      ¬ (N.proc = none ∧ N.refs = [] ∧ N.tmpRefs = 0) := by
  intro h
  obtain ⟨N, hN⟩ := Option.isSome_iff_exists.mp (show (afterUndo.node 0).isSome = true by decide)
  have hreach : (refSys oneThread).Reach afterUndo :=
    Sys.ReachIf.execIf reachIf_afterReset.reach (Option.some_get _).symm
  have hneg : ∀ K, afterUndo.node 0 = some K → K.localStrongRefs = -1 := by decide
  have hpos := (h oneThread afterUndo 0 N hreach hN).1
  rw [hneg N hN] at hpos
  exact absurd hpos (by decide)

end Redroid.Binder.Refs
