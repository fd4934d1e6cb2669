import Redroid.Binder.RefCounts

/-!
# How references are created

`binder_inc_ref_for_node` puts a new reference into the tables and increments it afterwards. The
increment can fail, and nothing takes the reference out again.

* `RefState.incRefForNode`: the function in one go; `Node.canInc`: when the increment of the node
  succeeds.
* `Counted`: only a reference that a task is working on, with the outer lock held, has no count.
-/

namespace Redroid.Binder.Refs

open RefState

/-- `binder_inc_ref_for_node` without another task in between: whether it succeeds. `alloc`: whether
`kzalloc` does. -/
def RefState.incRefForNode (L : Layout) (s : RefState) (p : ProcId) (n : NodeId) (strong : Bool)
    (list : Option ThreadId) (alloc : Bool) : Option (Bool × RefState) :=
  match s.getRefForNode p n with
  | some r => s.incRef L r strong list
  | none =>
    if alloc then do
      let s₁ ← s.addRef L p n
      s₁.incRef L s.nextRef strong list
    else some (false, s)

/-- The first internal increment of this kind succeeds. -/
def Node.canInc (N : Node) (strong : Bool) (list : Option ThreadId) (mgr : Bool) : Bool :=
  list.isSome || if strong then N.internalStrongRefs != 0 || (N.proc.isSome && mgr && N.hasStrongRef)
    else N.hasWeakRef || N.work.isSome

/-- The tables of `p` and the list of `n` are as before. -/
def NoTrace (s s' : RefState) (p : ProcId) (n : NodeId) : Prop :=
  s'.refsByDesc p = s.refsByDesc p ∧ s'.refsByNode p = s.refsByNode p ∧
    (s'.node n).map Node.refs = (s.node n).map Node.refs

/-- The step is no failing increment of a new reference. -/
def counts (L : Layout) (s : RefState) : RefOp → Bool
  | .run i _ =>
    match s.tasks[i]? with
    | some ⟨_, .incNewRef _ _ _ r strong list :: _⟩ =>
      (s.ref r).all fun R => (s.node R.node).all fun N => N.canInc strong list (s.isMgr L R.node N)
    | _ => true
  | _ => true

variable {L : Layout} {s s' s₁ : RefState} {n : NodeId} {N : Node} {p : ProcId} {r : RefId}
  {R : Ref} {i : Nat} {a : Actor} {act : Act} {rest : List Act} {op : RefOp} {strong : Bool}
  {list : Option ThreadId}

theorem Node.inc_canInc {mgr : Bool} : (N.inc strong true list mgr).1 = N.canInc strong list mgr := by
  cases strong with
  | true =>
    rw [Node.inc_strong]
    cases list with
    | some x => rfl
    | none =>
      simp only [Node.canInc]
      cases h1 : N.internalStrongRefs == 0 <;> cases h2 : N.proc.isSome && mgr && N.hasStrongRef <;>
        simp_all
  | false =>
    rw [Node.inc_weak]
    cases list with
    | some x =>
      simp only [Node.canInc]
      split <;> rfl
    | none =>
      simp only [Node.canInc]
      cases h1 : N.hasWeakRef <;> cases h2 : N.work <;> simp

/-! ## One call -/

theorem insertDesc_isSome {d : Nat} {xs : List RefId} (h : d ∉ xs.map s.descOf) :
    ∃ qs, s.insertDesc r d xs = some qs := by
  induction xs with
  | nil => exact ⟨[r], rfl⟩
  | cons x xs ih =>
    rw [List.map_cons, List.mem_cons, not_or] at h
    obtain ⟨qs, hqs⟩ := ih h.2
    simp only [RefState.insertDesc]
    split
    · exact ⟨_, rfl⟩
    · split
      · exact ⟨x :: qs, by rw [hqs]; rfl⟩
      · exact absurd (by omega) h.1

theorem insertDesc_none {d : Nat} {xs : List RefId} (hs : xs.Pairwise (s.descOf · < s.descOf ·))
    (h : d ∈ xs.map s.descOf) : s.insertDesc r d xs = none := by
  by_contra hne
  obtain ⟨qs, hqs⟩ := Option.ne_none_iff_exists'.mp hne
  obtain ⟨as, bs, rfl, -, has, hbs⟩ := Tables.insertDesc_eq hs hqs
  rw [List.map_append, List.mem_append, List.mem_map, List.mem_map] at h
  rcases h with ⟨q, hq, rfl⟩ | ⟨q, hq, rfl⟩
  · exact lt_irrefl _ (has q hq)
  · exact lt_irrefl _ (hbs q hq)

/-- A failed increment changes nothing. -/
theorem incRef_failed (h : s.incRef L r strong list = some (false, s')) : s' = s := by
  obtain ⟨R, -, ⟨-, -, rfl⟩ | ⟨hf, -⟩ | ⟨hf, -⟩⟩ := incRef_cases h
  · rfl
  · cases hf
  · cases hf

/-- The first increment of this kind succeeds if the node allows it. -/
theorem incRef_zero (L : Layout) (list : Option ThreadId) (hR : s.ref r = some R) (hc : R.count strong = 0)
    (hN : s.node R.node = some N) : ∃ s', s.incRef L r strong list =
      some (N.canInc strong list (s.isMgr L R.node N), s') := by
  have hcount : (if strong = true then R.strong else R.weak) = 0 := hc
  rw [← Node.inc_canInc]
  simp [RefState.incRef, hR, hN, hcount]

/-- The call on a new reference: it is in the tables, and it is incremented if the node allows it. -/
theorem incRef_new (strong : Bool) (list : Option ThreadId) (hN : s.node n = some N)
    (ha : s.addRef L p n = some s₁) :
    (∃ s', s₁.incRef L s.nextRef strong list = some (N.canInc strong list (s.isMgr L n N), s')) ∧
      s₁.refsByNode p = s.nextRef :: s.refsByNode p := by
  obtain ⟨M, qs, hM, -, rfl⟩ := addRef_eq ha
  obtain rfl : M = N := Option.some.inj (hM.symm.trans hN)
  refine ⟨?_, by simp⟩
  refine incRef_zero _ _ (N := { M with refs := s.nextRef :: M.refs })
    (R := ⟨p, s.nextDesc L p n, n, 0, 0⟩) (by simp [RefState.setRef]) ?_
    (by simp [RefState.setRef, RefState.setNode])
  cases strong <;> rfl

/-- A call that fails leaves no trace, unless it has put a new reference into the tables. -/
theorem incRefForNode_iff (ht : Tables s) (hN : s.node n = some N) (alloc : Bool) :
    (∀ s', s.incRefForNode L p n strong list alloc = some (false, s') → NoTrace s s' p n) ↔
      ((s.getRefForNode p n).isSome ∨ alloc = false ∨ N.canInc strong list (s.isMgr L n N) = true ∨
        s.nextDesc L p n ∈ (s.refsByDesc p).map s.descOf) := by
  constructor
  · intro h
    by_contra hno
    simp only [not_or, Bool.not_eq_false, Bool.not_eq_true, Option.isSome_eq_false_iff,
      Option.isNone_iff_eq_none] at hno
    obtain ⟨hnone, rfl, hcan, hd⟩ := hno
    obtain ⟨qs, hqs⟩ := insertDesc_isSome (r := s.nextRef) hd
    obtain ⟨s₁, hs₁⟩ : ∃ s₁, s.addRef L p n = some s₁ := by
      simp only [RefState.nextDesc] at hqs
      simp [RefState.addRef, hN, hqs]
    obtain ⟨⟨s', hs'⟩, htab⟩ := incRef_new strong list hN hs₁
    rw [hcan] at hs'
    have hcall : s.incRefForNode L p n strong list true = some (false, s') := by
      simp [RefState.incRefForNode, hnone, hs₁, hs']
    have := (h s' hcall).2.1
    rw [incRef_failed hs', htab] at this
    exact absurd this (List.cons_ne_self _ _)
  · intro h s' hcall
    simp only [RefState.incRefForNode] at hcall
    split at hcall
    · rw [incRef_failed hcall]
      exact ⟨rfl, rfl, rfl⟩
    · rename_i hnone
      rw [hnone] at h
      split at hcall
      · rename_i halloc
        obtain ⟨s₁, hs₁, hcall⟩ := Option.bind_eq_some_iff.mp hcall
        rcases h with h | h | h | h
        · cases h
        · rw [halloc] at h
          cases h
        · obtain ⟨⟨s₂, hs₂⟩, -⟩ := incRef_new strong list hN hs₁
          rw [hcall, h] at hs₂
          cases hs₂
        · obtain ⟨M, qs, -, hqs, -⟩ := addRef_eq hs₁
          rw [insertDesc_none (ht.sorted p) h] at hqs
          cases hqs
      · cases hcall
        exact ⟨rfl, rfl, rfl⟩

/-! ## Runs -/

/-- The act works on the reference `r` of `p`, with the outer lock of `p` held. -/
def Act.worksOn (act : Act) (p : ProcId) (r : RefId) : Prop :=
  (∃ why n strong list, act = .incNewRef why p n r strong list) ∨ act = .cleanupRef p r

theorem Act.worksOn.outer (h : act.worksOn p r) : act.outer = some p := by
  rcases h with ⟨why, n, strong, list, rfl⟩ | rfl
  · rfl
  · rfl

/-- A task is working on the reference `r` of `p`. -/
def Working (s : RefState) (p : ProcId) (r : RefId) : Prop :=
  ∃ (i : Nat) (a : Actor) (act : Act) (rest : List Act),
    s.tasks[i]? = some ⟨a, act :: rest⟩ ∧ act.worksOn p r

/-- A step of another task leaves the work as it is. -/
theorem Working.exec (h : Working s p r) (he : s.exec L op = some s') :
    Working s' p r ∨ ∃ act, Runs s op act ∧ act.worksOn p r := by
  obtain ⟨j, a, act, rest, hj, hw⟩ := h
  rcases exec_tasks he with ⟨ts, hts⟩ | ⟨i, a', act', rest', acts, hi, hts, hrun⟩
  · exact .inl ⟨j, a, act, rest, by rw [hts]; rw [List.getElem?_append_left
      (List.getElem?_eq_some_iff.mp hj).1, hj], hw⟩
  · by_cases hij : i = j
    · subst hij
      rw [hi] at hj
      cases hj
      rcases hrun with hrun | ⟨x, b, target, rfl⟩
      · exact .inr ⟨_, hrun, hw⟩
      · rcases hw with ⟨_, _, _, _, hw⟩ | hw <;> cases hw
    · exact .inl ⟨j, a, act, rest, by rw [hts, List.getElem?_set_ne hij, hj], hw⟩

/-- A reference without a count is one that a task is working on. -/
def Counted (s : RefState) : Prop :=
  ∀ r R, s.ref r = some R → R.unused = true → Working s R.proc r

theorem Ref.setCount_succ {k : Int32} (h0 : 0 ≤ k) (hmax : k ≠ Int32.maxValue) :
    ¬ (R.setCount strong (k + 1)).unused = true := by
  have hne : k + 1 ≠ 0 := by grind
  cases strong <;> simp [Ref.setCount, Ref.unused, hne]

theorem Runs.eq {act' : Act} {ok : Bool} (h : Runs s (.run i ok) act')
    (ht : s.tasks[i]? = some ⟨a, act :: rest⟩) : act' = act := by
  obtain ⟨_, _, _, _, hop, hact'⟩ := h
  cases hop
  rw [ht] at hact'
  cases hact'
  rfl

theorem getRef_mem {desc : Nat} {needStrong : Bool} (h : s.getRef p desc needStrong = some r) :
    r ∈ s.refsByDesc p := by
  simp only [RefState.getRef, Option.filter_eq_some_iff] at h
  exact List.mem_of_find?_eq_some h.1

theorem Lowers.mem {p : ProcId} (h : Lowers s p r strong act) : r ∈ s.refsByDesc p := by
  cases h with
  | object h | update h => exact getRef_mem h

theorem Lowers.outer {p : ProcId} (h : Lowers s p r strong act) : act.outer = none := by
  cases h with
  | object | update => rfl

/-- The act increments its reference without the outer lock held before, or it works on it. -/
theorem Raises.outer (h : Raises s r strong list act) :
    act.outer = none ∨ ∃ why p n, act = .incNewRef why p n r strong list := by
  cases h with
  | found hact =>
    rcases hact with rfl | rfl
    · exact .inl rfl
    · exact .inl rfl
  | new => exact .inr ⟨_, _, _, rfl⟩
  | update => exact .inl rfl

theorem Counted.exec (h : Counted s) (ht : Tables s) (hn : NonNeg s) (he : s.exec L op = some s')
    (hc : counts L s op = true) (hno : s.overflows op = false) : Counted s' := by
  intro r R hR hun
  -- the reference has not changed, and the act that is done does not work on it
  have old {R₀ : Ref} (hR₀ : s.ref r = some R₀) (hu : R₀.unused = true) (hp : R₀.proc = R.proc)
      (hrun : ∀ act, Runs s op act → ¬ act.worksOn R.proc r) : Working s' R.proc r := by
    rcases (hp ▸ h r R₀ hR₀ hu).exec he with hw | ⟨act, hact, hw⟩
    · exact hw
    · exact absurd hw (hrun act hact)
  have no {act : Act} (ho : act.outer = none) : ¬ act.worksOn R.proc r := fun hw => by
    rw [hw.outer] at ho
    cases ho
  cases exec_refStep he ht.fresh with
  | same hs ho =>
    rw [hs.ref] at hR
    exact old hR hun rfl fun act hact => no (ho act hact)
  | @inc i a act rest q strong list ok done s₁ _ hi hr hinc hs =>
    rw [hs.ref] at hR
    by_cases hq : r = q
    · subst hq
      obtain ⟨R₀, hR₀, hcases⟩ := incRef_cases hinc
      have hmax := overflows_eq_false hno (hr.incremented hi) hR₀
      have hsucc := @Ref.setCount_succ R₀ strong _ (hn r R₀ hR₀ strong) hmax
      obtain ⟨rfl, hz, rfl⟩ | ⟨-, -, rfl⟩ | ⟨-, -, N, -, -, rfl⟩ := hcases
      · rw [hR] at hR₀
        cases hR₀
        refine old hR hun rfl fun act' hact' hw => ?_
        rw [hact'.eq hi] at hw
        rcases hr.outer with ho | ⟨why, p, n, rfl⟩
        · exact no ho hw
        · obtain ⟨N, hN, -⟩ := ht.onNode r R hR
          obtain ⟨s₂, hs₂⟩ := incRef_zero L list hR hz hN
          have hcan : N.canInc strong list (s₁.isMgr L R.node N) = true := by
            simpa [counts, hi, hR, hN] using hc
          rw [hinc, hcan] at hs₂
          cases hs₂
      · simp only [RefState.setRef, Function.update_self, Option.some.injEq] at hR
        exact absurd hun (hR ▸ hsucc)
      · simp only [RefState.setRef, Function.update_self, Option.some.injEq] at hR
        exact absurd hun (hR ▸ hsucc)
    · have hR₀ : s.ref r = some R := by
        obtain ⟨R₀, -, ⟨-, -, rfl⟩ | ⟨-, -, rfl⟩ | ⟨-, -, N, -, -, rfl⟩⟩ := incRef_cases hinc
        · exact hR
        · simpa [RefState.setRef, hq] using hR
        · simpa [RefState.setRef, RefState.setNode, hq] using hR
      refine old hR₀ hun rfl fun act' hact' hw => ?_
      rw [hact'.eq hi] at hw
      rcases hr.outer with ho | ⟨why, p, n, rfl⟩
      · exact no ho hw
      · rcases hw with ⟨_, _, _, _, hw⟩ | hw
        · cases hw
          exact hq rfl
        · cases hw
  | @dec i a act rest p q strong ok last s₁ _ hi hl hdec hs hlast =>
    rw [hs.ref] at hR
    have hno : ∀ act', Runs s (.run i ok) act' → ¬ act'.worksOn R.proc r := fun act' hact' => by
      rw [hact'.eq hi]
      exact no hl.outer
    by_cases hq : r = q
    · subst hq
      -- a count that goes down to 0 has the lock kept for `binder_cleanup_ref_olocked`
      have gone {R₀ : Ref} (hR₀ : s.ref r = some R₀) (hproc : R.proc = R₀.proc)
          (hl' : last = R.unused) : Working s' R.proc r := by
        obtain ⟨rest', hrest'⟩ := hlast (hl'.trans hun)
        obtain ⟨R₁, hR₁, hp⟩ := (ht.byDesc p r).mp hl.mem
        rw [hR₀] at hR₁
        cases hR₁
        exact ⟨i, a, _, rest', hrest', .inr (by rw [hproc, hp])⟩
      obtain ⟨R₀, hR₀, ⟨-, rfl, -⟩ | ⟨-, hl', -, rfl⟩ | ⟨-, hl', -, N, -, rfl⟩⟩ :=
        decRef_cases hdec fun R hR => ht.onNode r R hR
      · exact old hR hun rfl hno
      · simp only [RefState.setRef, Function.update_self, Option.some.injEq] at hR
        subst hR
        exact gone hR₀ (by simp) hl'
      · simp only [RefState.setRef, Function.update_self, Option.some.injEq] at hR
        subst hR
        exact gone hR₀ (by simp) hl'
    · suffices hold : s.ref r = some R from old hold hun rfl hno
      obtain ⟨R₀, -, ⟨-, rfl, -⟩ | ⟨-, -, -, rfl⟩ | ⟨-, -, -, N, -, rfl⟩⟩ :=
        decRef_cases hdec fun R hR => ht.onNode q R hR
      · exact hR
      · simpa [RefState.setRef, hq] using hR
      · simpa [RefState.setRef, RefState.setNode, hq] using hR
  | @add i a why p n strong list rest ok s₁ _ hi hnone hadd hs hnew =>
    rw [hs.ref] at hR
    obtain ⟨N, qs, -, -, rfl⟩ := addRef_eq hadd
    by_cases hq : r = s.nextRef
    · subst hq
      simp only [RefState.setRef, Function.update_self, Option.some.injEq] at hR
      subst hR
      exact ⟨i, a, _, rest, hnew, .inl ⟨_, _, _, _, rfl⟩⟩
    · have hold : s.ref r = some R := by simpa [RefState.setRef, RefState.setNode, hq] using hR
      refine old hold hun rfl fun act' hact' => ?_
      rw [hact'.eq hi]
      exact no rfl
  | @remove i a act rest q ok s₁ _ hi hr hrem hs =>
    rw [hs.ref] at hR
    have hq : r ≠ q ∧ s.ref r = some R := by
      obtain ⟨R₀, N, w, -, -, -, ⟨-, rfl⟩ | ⟨-, rfl⟩⟩ :=
        cleanupRef_cases hrem fun R hR => ht.onNode q R hR
      · simpa [RefState.dropRef, RefState.setNode, Function.update_apply] using hR
      · simpa [RefState.dropRef, RefState.freeNode, Function.update_apply] using hR
    refine old hq.2 hun rfl fun act' hact' hw => ?_
    rw [hact'.eq hi] at hw
    cases hr with
    | cleanup =>
      rcases hw with ⟨_, _, _, _, hw⟩ | hw
      · cases hw
      · cases hw
        exact hq.1 rfl
    | release => exact no rfl hw

/-- In a run without a failing increment of a new reference and without an overflow: when the outer lock
of a process is free, all its references have a count. -/
theorem counted_of_reachIf
    (h : (refSys L).ReachIf (fun s op => counts L s op = true ∧ s.overflows op = false) s)
    (hf : s.outerFree p = true) (hr : r ∈ s.refsByDesc p) :
    ∃ R, s.ref r = some R ∧ (0 < R.strong ∨ 0 < R.weak) := by
  have hinv : Tables s ∧ NonNeg s ∧ Counted s := by
    refine h.inv (I := fun s => Tables s ∧ NonNeg s ∧ Counted s) ?_ ?_
    · rintro s rfl
      exact ⟨tables_start, fun r R hR => (by cases hR), fun r R hR => by cases hR⟩
    · intro s op s' hi hc hst
      exact ⟨hi.1.exec hst, hi.2.1.exec hi.1 hst hc.2, hi.2.2.exec hi.1 hi.2.1 hst hc.1 hc.2⟩
  obtain ⟨R, hR, rfl⟩ := (hinv.1.byDesc p r).mp hr
  refine ⟨R, hR, ?_⟩
  by_contra hno
  have hun : R.unused = true := by
    have hs : 0 ≤ R.strong := hinv.2.1 r R hR true
    have hw : 0 ≤ R.weak := hinv.2.1 r R hR false
    simp only [Ref.unused, Bool.and_eq_true, beq_iff_eq]
    grind
  obtain ⟨i, a, act, rest, ht, hw⟩ := hinv.2.2 r R hR hun
  have := List.all_eq_true.mp hf _ (List.mem_of_getElem? ht)
  simp [hw.outer] at this

/-- A call of `binder_inc_ref_for_node` that fails leaves no trace, just if it finds a reference, or
gets no memory, or if the increment of the node cannot fail, or no number is left. In a run in which no
increment of a new reference fails and no count overflows, all references of a process have a count
while nobody holds its outer lock. -/
theorem failedCreate_noTrace (L : Layout) :
    (∀ s p n N strong list alloc, (refSys L).Reach s → s.node n = some N →
      ((∀ s', s.incRefForNode L p n strong list alloc = some (false, s') → NoTrace s s' p n) ↔
        ((s.getRefForNode p n).isSome ∨ alloc = false ∨ N.canInc strong list (s.isMgr L n N) = true ∨
          s.nextDesc L p n ∈ (s.refsByDesc p).map s.descOf))) ∧
    (∀ s p, (refSys L).ReachIf (fun s op => counts L s op = true ∧ s.overflows op = false) s →
      s.outerFree p = true → ∀ r ∈ s.refsByDesc p, ∃ R, s.ref r = some R ∧ (0 < R.strong ∨ 0 < R.weak)) :=
  ⟨fun _ _ _ _ _ _ alloc hs hN => incRefForNode_iff (tables_of_reach hs) hN alloc,
    fun _ _ hs hf _ hr => counted_of_reachIf hs hf hr⟩

theorem failedCreate_afterAcquire : ∀ r ∈ afterAcquire.refsByDesc 1,
    ∃ R, afterAcquire.ref r = some R ∧ (0 < R.strong ∨ 0 < R.weak) := by
  have hrun : Sys.execIf (RefState.exec oneThread) (fun s op => counts oneThread s op = true ∧
      s.overflows op = false) start acquireMgr = some afterAcquire := rfl
  exact (failedCreate_noTrace oneThread).2 afterAcquire 1 (Sys.ReachIf.execIf (.init rfl) hrun) rfl

/-- The process 1 sends a weak binder object to the context manager 0, and exits before it reads the
node work. -/
def weakThenDie : List RefOp :=
  [.setCtxMgr 0 8 8, .run 0 true, .run 0 true, .transaction 1 0, .run 1 true,
    .object 1 ⟨.weakBinder, 16, 16⟩] ++ List.replicate 6 (.run 1 true) ++ [.send 1, .run 1 true] ++
    .close 1 :: List.replicate 10 (.run 2 true)

/-- The process 2 calls the context manager, and the reply has the weak handle: up to the call of
`binder_inc_ref_for_node`. -/
def replyWeak : List RefOp :=
  [.transaction 2 0, .run 3 true, .send 3, .run 3 true, .reply 0 2, .object 4 ⟨.weakHandle, 1, 0⟩,
    .run 4 true]

/-- The state before the call. -/
def beforeCreate : RefState :=
  (Sys.execIf (RefState.exec oneThread) (fun _ _ => True) start (weakThenDie ++ replyWeak)).get
    (by decide)

/-- The state after the call, and after the reply has failed. -/
def afterCreate : RefState :=
  (Sys.execIf (RefState.exec oneThread) (fun _ _ => True) beforeCreate
    (List.replicate 6 (.run 4 true))).get (by decide)

/-- The reply fails, and the process 2 has a reference without a count. -/
theorem leftover_afterCreate : (refSys oneThread).Reach beforeCreate ∧
    (∃ s', beforeCreate.incRefForNode oneThread 2 1 false none true = some (false, s') ∧
      ¬ NoTrace beforeCreate s' 2 1) ∧
    (refSys oneThread).Reach afterCreate ∧ (∀ t ∈ afterCreate.tasks, t.acts = []) ∧
    1 ∈ afterCreate.refsByDesc 2 ∧ afterCreate.ref 1 = some ⟨2, 1, 1, 0, 0⟩ := by
  have hreach : (refSys oneThread).Reach beforeCreate :=
    Sys.ReachIf.execIf (.init rfl) (Option.some_get _).symm
  refine ⟨hreach, ⟨_, rfl, fun h => ?_⟩, Sys.ReachIf.execIf hreach (Option.some_get _).symm,
    by decide, by decide, rfl⟩
  exact absurd h.1 (by decide)

end Redroid.Binder.Refs
