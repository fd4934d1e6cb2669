import Redroid.Binder.RefLocal

/-!
# When a node is freed

* `Local`: the local references of the nodes of the processes are there, and the context manager of
  a context is a node of a process that has not got past its release of the context manager.
* `nodeFree_unreferenced`: nothing refers to a node that is freed, and it is freed once.
-/

namespace Redroid.Binder.Refs

open RefState

/-- The node that the owner itself works on: an acknowledgement, or its context manager. -/
def Act.own : Act → Option NodeId
  | .done n .. | .becomeMgr _ n => some n
  | _ => none

/-- The node `n` is one of a process, or it is new. -/
def Tracked (s : RefState) (n : NodeId) : Prop :=
  s.nextNode ≤ n ∨ ∃ N p, s.node n = some N ∧ N.proc = some p

/-- The local references of the nodes of the processes are there. -/
structure Local (L : Layout) (s : RefState) : Prop where
  owed : ∀ n pl strong, Fits s n pl → Tracked s n → (s.owed n pl strong : Int) ≤ s.spareOf L n strong
  told : ∀ n N, s.node n = some N → (N.pendingStrongRef = true → N.hasStrongRef = true) ∧
    (N.pendingWeakRef = true → N.hasWeakRef = true)
  apart : ∀ p n m, Leaving s p n → m ∈ s.nodes p → s.ptrOf m ≠ s.ptrOf n
  mgr : ∀ c n, s.ctxMgr c = some n → ∃ N p, s.node n = some N ∧ N.proc = some p ∧ L.ctxOf p = c ∧
    (s.closed p = true → ∃ (i : Nat) (rest : List Act), s.tasks[i]? = some ⟨.worker p, .clearMgr p :: rest⟩)
  own : ∀ t ∈ s.tasks, ∀ x, t.actor = .thread x → ∀ act ∈ t.acts, ∀ n, act.own = some n →
    ∃ N, s.node n = some N ∧ N.proc = some (L.procOf x)

variable {L : Layout} {s s' s₁ : RefState} {m n : NodeId} {N N' : Node} {p q : ProcId} {b : BufId}
  {B B' : Buffer} {x : ThreadId} {r : RefId} {i : Nat} {a : Actor} {act : Act} {rest acts : List Act}
  {op : RefOp} {kind strong internal : Bool} {list : Option ThreadId} {pl : Option (ProcId × Nat)}

/-! ## The messages that the owner has -/

/-- What the owner has been told, and what it has not acknowledged. -/
def Node.flags (N : Node) : (Bool × Bool) × Bool × Bool :=
  ((N.pendingStrongRef, N.hasStrongRef), N.pendingWeakRef, N.hasWeakRef)

theorem told_iff (h : N'.flags = N.flags) : ((N'.pendingStrongRef = true → N'.hasStrongRef = true) ∧
    (N'.pendingWeakRef = true → N'.hasWeakRef = true)) ↔
      (N.pendingStrongRef = true → N.hasStrongRef = true) ∧
        (N.pendingWeakRef = true → N.hasWeakRef = true) := by
  simp only [Node.flags, Prod.mk.injEq] at h
  obtain ⟨⟨h₁, h₂⟩, h₃, h₄⟩ := h
  rw [h₁, h₂, h₃, h₄]

theorem Node.drop_flags : (N.drop strong internal).flags = N.flags := by
  cases strong <;> cases internal <;> rfl

theorem Node.dec_flags : (N.dec strong internal).2.flags = N.flags := by
  obtain ⟨w, hw, -⟩ := N.dec_eq strong internal
  rw [hw]
  exact Node.drop_flags

theorem Node.bump_flags : (N.bump strong internal).flags = N.flags := by
  cases strong <;> cases internal <;> rfl

theorem Node.inc_flags {mgr : Bool} : (N.inc strong true list mgr).2.flags = N.flags := by
  by_cases h : (N.inc strong true list mgr).1 = true
  · obtain ⟨w, hw, -⟩ := Node.inc_succeeds h
    rw [hw]
    cases strong <;> rfl
  · rw [Node.inc_failed (by simpa using h)]

theorem Node.unref_flags {w : Option WorkList} : (N.unref r strong w).flags = N.flags := by
  cases strong <;> rfl

/-! ## The invariant -/

theorem local_start : Local L start := by
  constructor <;> simp [start, RefState.owed, RefState.acting, RefState.holding, RefState.spareOf, Leaving]

namespace Local

theorem based (h : Local L s) (ht : Tables s) : Based s where
  mgr c hc := by
    obtain ⟨N, -, hN, -⟩ := h.mgr c _ hc
    exact lt_irrefl _ (ht.nodeLt _ N hN)
  told := h.told
  apart := h.apart

/-- The place of a node of a process. -/
theorem exists_fits (hl : Links s) (hN : s.node n = some N) (hp : N.proc = some p) : ∃ pl, Fits s n pl := by
  by_cases hn : n ∈ s.nodes p
  · exact ⟨some (p, s.ptrOf n), .inl ⟨hn, rfl⟩⟩
  · refine ⟨none, fun q hq => hn ?_⟩
    obtain ⟨_, _, hid⟩ := hl.own hq
    obtain ⟨M, hM, -, -, hMp⟩ := ident_some.mp hid
    rw [hN] at hM
    cases hM
    rw [hp] at hMp
    cases hMp
    exact hq

/-- The local counts of a node of a process are at least what keeps them. -/
theorem spare_nonneg (h : Local L s) (hl : Links s) (hN : s.node n = some N) (hp : N.proc = some p)
    (strong : Bool) : 0 ≤ N.spare strong (s.isMgr L n N) := by
  obtain ⟨pl, hf⟩ := exists_fits hl hN hp
  have := h.owed n pl strong hf (.inr ⟨N, p, hN, hp⟩)
  rw [spareOf_some hN] at this
  omega

/-- The place of a node before a step, which is not reset in it. -/
theorem exec_owed (h : Local L s) (hg : Good L s) (he : s.exec L op = some s') (hf : Fits s n pl)
    (ht : Tracked s n) (hr : ∀ p i ok a rest, op = .run i ok →
      s.tasks[i]? ≠ some ⟨a, .nodeRelease p n :: rest⟩) :
    (s'.owed n pl strong : Int) ≤ s'.spareOf L n strong := by
  have hpays : Pays L s s' n pl strong := exec_pays hg (h.based hg.tables) he hf hr
  have := h.owed n pl strong hf ht
  simp only [Pays] at hpays
  omega

theorem exec_told (h : Local L s) (hg : Good L s) (he : s.exec L op = some s') (hN' : s'.node n = some N') :
    (N'.pendingStrongRef = true → N'.hasStrongRef = true) ∧
      (N'.pendingWeakRef = true → N'.hasWeakRef = true) := by
  rcases exec_turns hg.tables he hN' with ⟨N, hN, hturn⟩ | ⟨-, p, ptr, cookie, rfl⟩
  · have hold := h.told n N hN
    cases hturn with
    | same | take | transaction | addRef | dropWork | nodeRelease => exact hold
    | translateOwn => rwa [told_iff Node.bump_flags]
    | inc => rwa [told_iff Node.inc_flags]
    | decNode | decRef => rwa [told_iff Node.dec_flags]
    | putNode => rwa [told_iff (Node.dec_flags.trans (by rfl))]
    | cleanupRef => rwa [told_iff (Node.dec_flags.trans Node.unref_flags)]
    | @done _ _ _ kind =>
      have : (N.clearPending kind).dec kind false |>.2.flags = (N.clearPending kind).flags := Node.dec_flags
      rw [told_iff this]
      cases kind
      · exact ⟨hold.1, fun h => by cases h⟩
      · exact ⟨fun h => (by cases h), hold.2⟩
    | becomeMgr => exact ⟨fun _ => rfl, fun _ => rfl⟩
    | readNode hp hw =>
      have hspare := h.spare_nonneg hg.links hN hp true
      refine ⟨fun hpend => ?_, fun _ => hw⟩
      show N.strong = true
      simp only [Node.tell, Bool.or_eq_true, Bool.and_eq_true] at hpend
      rcases hpend with hpend | ⟨hs, -⟩
      · simp only [Node.spare, Node.localRefs, Node.pending, hpend, if_true] at hspare
        simp only [Node.strong, Bool.or_eq_true, bne_iff_ne]
        right
        simp at hspare
        omega
      · exact hs
  · exact ⟨fun h => (by cases h), fun h => by cases h⟩

/-- A node that is about to be released was so, or it was the first in the tree. -/
theorem exec_leaving (hg : Good L s) (he : s.exec L op = some s') (hl : Leaving s' p n) :
    Leaving s p n ∨ (s.closed p = true ∧ ∃ ns, s.nodes p = n :: ns ∧ s'.nodes p = ns) := by
  obtain ⟨j, rest, hj⟩ := hl
  have old {y : ThreadId} {c : CtxId} {k : NodeId} (hl : ∀ t' ∈ s'.tasks, ∀ act ∈ t'.acts, act.isLink = true →
      (∃ t ∈ s.tasks, t.actor = t'.actor ∧ act ∈ t.acts) ∨
        (t'.actor = .thread y ∧ act = .becomeMgr c k)) : Leaving s p n := by
    rcases hl _ (List.mem_of_getElem? hj) _ List.mem_cons_self rfl with ⟨t, ht, -, hm⟩ | ⟨-, hact⟩
    · exact hg.shape.leaving ht hm
    · cases hact
  cases exec_nodeStep hg.tables hg.tmp hg.shape he with
  | keep _ _ hl | free _ _ _ hl => exact .inl (hl.leaving hg.shape ⟨j, rest, hj⟩)
  | new _ _ _ _ _ hl | find _ _ _ hl => exact .inl (old hl)
  | @unlink q m ns hc hns _ hns' _ hl =>
    rcases hl _ (List.mem_of_getElem? hj) _ List.mem_cons_self rfl with ⟨t, ht, -, hm⟩ | ⟨-, hact⟩
    · exact .inl (hg.shape.leaving ht hm)
    · cases hact
      exact .inr ⟨hc, ns, hns, by rw [hns', Function.update_self]⟩
  | @reset i a q m M rest' ht _ _ _ htasks | @gone i a q m rest' ht _ _ htasks =>
    obtain ⟨rest₀, hrest, hno⟩ := (hg.shape.task _ (List.mem_of_getElem? ht)).nodeRelease (p := q) (n := m)
      List.mem_cons_self
    cases hrest
    refine .inl (hg.links.oneLeaving hg.shape ht htasks (fun q' k hk => ?_) ⟨j, rest, hj⟩).1
    first
      | exact hno q' k hk
      | exact hno q' k ((List.mem_cons.mp hk).resolve_left nofun)

theorem exec_apart (h : Local L s) (hg : Good L s) (he : s.exec L op = some s') (hl : Leaving s' p n)
    (hm : m ∈ s'.nodes p) : s'.ptrOf m ≠ s'.ptrOf n := by
  have hg' := hg.exec he
  obtain ⟨_, _, hidm⟩ := hg'.links.own hm
  obtain ⟨-, _, _, hidn⟩ := hg'.links.leaving hl
  obtain ⟨M', hM', -, -, hpm⟩ := ident_some.mp hidm
  obtain ⟨N', hN', -, -, hpn⟩ := ident_some.mp hidn
  have hclosed : s.closed p = true := by
    rcases exec_leaving hg he hl with ⟨i, rest, hi⟩ | ⟨hc, -⟩
    · exact hg.shape.worker p _ (List.mem_of_getElem? hi)
    · exact hc
  -- both are old, with their pointers
  have old {k : NodeId} {K' : Node} (hK' : s'.node k = some K') (hp : K'.proc = some p) :
      (∃ K, s.node k = some K) ∧ s'.ptrOf k = s.ptrOf k := by
    rcases exec_old hg he hK' with ⟨K, hK, hptr, -⟩ | ⟨-, x, hx, -, hopen, -⟩
    · exact ⟨⟨K, hK⟩, by rw [ptrOf_some hK', ptrOf_some hK, hptr]⟩
    · rw [hp] at hx
      cases hx
      rw [hclosed] at hopen
      cases hopen
  obtain ⟨⟨M, hM⟩, hptrm⟩ := old hM' hpm
  obtain ⟨-, hptrn⟩ := old hN' hpn
  have hmem : m ∈ s.nodes p := by
    rcases exec_mem hg he hm with hmem | hnew
    · exact hmem
    · exact absurd (hg.tables.nodeLt m M hM) (hnew ▸ lt_irrefl _)
  rw [hptrm, hptrn]
  rcases exec_leaving hg he hl with hl | ⟨-, ns, hns, hns'⟩
  · exact h.apart p n m hl hmem
  · intro heq
    have hmn : m = n := hg.links.ptr hmem (by rw [hns]; exact List.mem_cons_self) heq
    have hnd := hg.links.nodup p
    rw [hns, List.nodup_cons] at hnd
    rw [hns', hmn] at hm
    exact hnd.1 hm

/-- What is owed at a place is owed by name, or for the objects there. -/
theorem owed_split : s.owed n pl strong ≤ s.owed n none strong + s.owed m pl strong := by
  have hact (act : Act) : act.owes n pl strong ≤ act.owes n none strong + act.owes m pl strong := by
    cases act with
    | releaseObjects q os => exact Nat.le_add_left _ _
    | _ => exact Nat.le_add_right _ _
  have hbuf (B : Buffer) : B.owes n pl strong ≤ B.owes n none strong + B.owes m pl strong := by
    simp only [Buffer.owes]
    split
    · omega
    · exact Nat.zero_le _
  have hsum {α : Type} (f g k : α → Nat) (xs : List α) (hle : ∀ x, f x ≤ g x + k x) :
      (xs.map f).sum ≤ (xs.map g).sum + (xs.map k).sum := by
    rw [← List.sum_map_add]
    exact List.sum_le_sum fun x _ => hle x
  have hacts : s.acting (Act.owes n pl strong) ≤
      s.acting (Act.owes n none strong) + s.acting (Act.owes m pl strong) :=
    hsum _ _ _ s.tasks fun t => hsum _ _ _ t.acts hact
  have hbufs : s.holding (Buffer.owes n pl strong) ≤
      s.holding (Buffer.owes n none strong) + s.holding (Buffer.owes m pl strong) :=
    hsum _ _ _ s.bufs hbuf
  simp only [RefState.owed]
  omega

/-- A step that releases the node `n` takes it from its process. -/
theorem exec_release {ok : Bool} (he : s.exec L (.run i ok) = some s')
    (hi : s.tasks[i]? = some ⟨a, .nodeRelease p n :: rest⟩) (hN' : s'.node n = some N') :
    N'.proc = none := by
  obtain ⟨t, ht, h⟩ := Option.bind_eq_some_iff.mp he
  rw [hi] at ht
  cases ht
  cases execAct_cases h with
  | nodeReleaseFree => simp [RefState.setTask, RefState.freeNode] at hN'
  | nodeRelease =>
    simp only [RefState.setTask, RefState.setNode, Function.update_self, Option.some.injEq] at hN'
    rw [← hN']
  | incFound hact => rcases hact with hact | hact <;> cases hact
  | dropWork hact | dropEnd hact => rcases hact with ⟨_, hact⟩ | ⟨_, hact⟩ <;> cases hact

/-- A node that is not there is not released. -/
theorem not_released (hg : Good L s) (hn : s.node n = none) (p : ProcId) (i : Nat) (ok : Bool) (a : Actor)
    (rest : List Act) (_ : op = .run i ok) : s.tasks[i]? ≠ some ⟨a, .nodeRelease p n :: rest⟩ := by
  intro hi
  obtain ⟨-, -, N, hN, -⟩ := hg.leaving hi
  rw [hn] at hN
  cases hN

theorem node_new (ht : Tables s) (hlt : s.nextNode ≤ n) : s.node n = none := by
  by_contra hne
  obtain ⟨N, hN⟩ := Option.ne_none_iff_exists'.mp hne
  exact absurd (ht.nodeLt n N hN) (Nat.not_lt.mpr hlt)

theorem not_mem_new (hg : Good L s) (hlt : s.nextNode ≤ n) (q : ProcId) : n ∉ s.nodes q := by
  intro hmem
  obtain ⟨_, _, hid⟩ := hg.links.own hmem
  obtain ⟨N, hN, -⟩ := ident_some.mp hid
  rw [node_new hg.tables hlt] at hN
  cases hN

/-- Nothing is owed to a node that is not there yet. -/
theorem exec_owed_new (h : Local L s) (hg : Good L s) (he : s.exec L op = some s') (hf : Fits s' n pl)
    (hnew : s'.nextNode ≤ n) : (s'.owed n pl strong : Int) ≤ s'.spareOf L n strong := by
  have hlt : s.nextNode ≤ n := (exec_nextNode hg.tables he).trans hnew
  have hfresh := node_new hg.tables hlt
  have hzero : s'.spareOf L n strong = 0 := spareOf_none (node_new (hg.exec he).tables hnew)
  have hname : (s'.owed n none strong : Int) ≤ s'.spareOf L n strong :=
    h.exec_owed hg he (not_mem_new hg hlt) (.inl hlt) (not_released hg hfresh)
  cases pl with
  | none => exact hname
  | some k =>
    obtain ⟨p, ptr⟩ := k
    rcases hf with ⟨hmem, -⟩ | ⟨-, hopen', hno⟩
    · exact absurd hmem (not_mem_new (hg.exec he) hnew p)
    obtain ⟨hopen, hno | ⟨m, hm, hgone⟩⟩ := exec_getNode hg he hopen' hno
    · exact h.exec_owed hg he (.inr ⟨hlt, hopen, hno⟩) (.inl hlt) (not_released hg hfresh)
    -- a node at this place is freed: no object was left for it
    · obtain ⟨hmem, M, hM, hptr⟩ := getNode_some hm
      obtain ⟨_, _, hid⟩ := hg.links.own hmem
      obtain ⟨M₁, hM₁, -, -, hMp⟩ := ident_some.mp hid
      have hobj : (s'.owed m (some (p, ptr)) strong : Int) ≤ s'.spareOf L m strong := by
        refine h.exec_owed hg he (.inl ⟨hmem, by rw [ptrOf_some hM, hptr]⟩) (.inr ⟨M₁, p, hM₁, hMp⟩) ?_
        intro q i ok a rest _ hi
        obtain ⟨hl, -⟩ := hg.leaving hi
        obtain ⟨hnmem, _, _, hid'⟩ := hg.links.leaving hl
        rw [hid] at hid'
        simp only [Option.some.injEq, Prod.mk.injEq] at hid'
        exact hnmem (hid'.2.2 ▸ hmem)
      rw [spareOf_none hgone] at hobj
      have hsplit : s'.owed n (some (p, ptr)) strong ≤
          s'.owed n none strong + s'.owed m (some (p, ptr)) strong := owed_split
      omega

theorem exec_all (h : Local L s) (hg : Good L s) (he : s.exec L op = some s') (hf : Fits s' n pl)
    (ht : Tracked s' n) : (s'.owed n pl strong : Int) ≤ s'.spareOf L n strong := by
  have hg' := hg.exec he
  rcases ht with hnew | ⟨N', p, hN', hp'⟩
  · exact h.exec_owed_new hg he hf hnew
  have hlt' := hg'.tables.nodeLt n N' hN'
  rcases exec_old hg he hN' with ⟨N, hN, hptr, hp⟩ | ⟨hnew, x, hx, hno, hopen, hmem⟩
  · -- an old node, with the place that it had, or off its tree now
    have hNp : N.proc = some p := by
      rcases hp with hp | ⟨hp, -⟩
      · rw [← hp, hp']
      · rw [hp'] at hp
        cases hp
    have hr : ∀ q i ok a rest, op = .run i ok → s.tasks[i]? ≠ some ⟨a, .nodeRelease q n :: rest⟩ := by
      rintro q i ok a rest rfl hi
      rw [exec_release he hi hN'] at hp'
      cases hp'
    cases pl with
    | none =>
      obtain ⟨pl, hf'⟩ := exists_fits hg.links hN hNp
      have howed : (s'.owed n pl strong : Int) ≤ s'.spareOf L n strong :=
        h.exec_owed hg he hf' (.inr ⟨N, p, hN, hNp⟩) hr
      have := owed_mono s' n pl strong
      omega
    | some k =>
      obtain ⟨q, ptr⟩ := k
      rcases hf with ⟨hmem', hptr'⟩ | ⟨hle, -⟩
      · refine h.exec_owed hg he (.inl ⟨?_, ?_⟩) (.inr ⟨N, p, hN, hNp⟩) hr
        · rcases exec_mem hg he hmem' with hmem | hnew
          · exact hmem
          · exact absurd (hg.tables.nodeLt n N hN) (hnew ▸ lt_irrefl _)
        · rw [ptrOf_some hN, ← hptr, ← ptrOf_some hN', hptr']
      · exact absurd hlt' (Nat.not_lt.mpr hle)
  · -- a new node, where nothing was found
    have hfresh : s.node n = none := node_new hg.tables hnew.ge
    cases pl with
    | none => exact absurd hmem (hf _)
    | some k =>
      obtain ⟨q, ptr⟩ := k
      rcases hf with ⟨hmem', hptr'⟩ | ⟨hle, -⟩
      · obtain ⟨_, _, hid⟩ := hg'.links.own hmem'
        obtain ⟨M, hM, -, -, hMq⟩ := ident_some.mp hid
        rw [hN'] at hM
        cases hM
        rw [hx] at hMq
        cases hMq
        rw [ptrOf_some hN'] at hptr'
        subst hptr'
        exact h.exec_owed hg he (.inr ⟨hnew.ge, hopen, hno⟩) (.inl hnew.ge) (not_released hg hfresh)
      · exact absurd hlt' (Nat.not_lt.mpr hle)

/-- The worker that is about to clear the context manager does not release a node. -/
theorem clearing_not_leaving (hg : Good L s) (hi : s.tasks[i]? = some ⟨.worker p, .clearMgr p :: rest⟩) :
    ¬ Leaving s p n := by
  rintro ⟨j, rest', hj⟩
  have hij := hg.shape.oneWorker i j p _ _ hi hj
  subst hij
  rw [hi] at hj
  cases hj

/-- The context manager has the local references of its own. -/
theorem mgr_kept (h : Local L s) (hl : Links s) (hN : s.node n = some N) (hp : N.proc = some p)
    (hc : s.ctxMgr (L.ctxOf p) = some n) (strong : Bool) : 1 ≤ N.localRefs strong := by
  have hspare := h.spare_nonneg hl hN hp strong
  have hmgr : s.isMgr L n N = true := by simp [RefState.isMgr, hp, hc]
  rw [hmgr] at hspare
  simp only [Node.spare, Bool.toNat_true] at hspare
  omega

/-- The context manager of a context is not freed, and it keeps its process. -/
theorem mgr_stays (h : Local L s) (hg : Good L s) (he : s.exec L op = some s') (hN : s.node n = some N)
    (hp : N.proc = some p) (hc : s.ctxMgr (L.ctxOf p) = some n)
    (hw : s.closed p = true →
      ∃ (i : Nat) (rest : List Act), s.tasks[i]? = some ⟨.worker p, .clearMgr p :: rest⟩) :
    ∃ N', s'.node n = some N' ∧ N'.proc = some p := by
  have hkept (k : Bool) : 1 ≤ N.localRefs k := h.mgr_kept hg.links hN hp hc k
  have hstays (q : ProcId) (hl : Leaving s q n) (hq : N.proc = some q) (hclosed : s.closed q = true) :
      False := by
    rw [hp] at hq
    cases hq
    obtain ⟨i, rest, hi⟩ := hw hclosed
    exact clearing_not_leaving hg hi hl
  cases hN' : s'.node n with
  | none =>
    exfalso
    obtain ⟨M, hfree, -⟩ := exec_freed hg.tables he hN hN'
    cases hfree with
    | @decNode _ _ _ strong _ K _ hK hf =>
      rw [hN] at hK
      cases hK
      have hzero := dec_free_local hf (!strong)
      have := hkept (!strong)
      cases strong <;> simp at hzero this <;> omega
    | putNode _ hK hf =>
      rw [hN] at hK
      cases hK
      have hzero := dec_free_local hf true
      have := hkept true
      simp only [Bool.true_eq_false, false_and, if_false] at hzero
      exact absurd (this.trans hzero.le) (by decide)
    | cleanupRef _ _ _ _ hK hf =>
      rw [hN] at hK
      cases hK
      have hzero := dec_free_local hf true
      rw [Node.unref_localRefs] at hzero
      have := hkept true
      simp only [Bool.true_eq_false, false_and, if_false] at hzero
      omega
    | readNode hK _ hweak =>
      rw [hN] at hK
      cases hK
      have hzero := (Node.weak_eq_false.mp hweak).2.1
      have := hkept false
      simp only [Node.localRefs, Bool.false_eq_true, if_false] at this
      omega
    | nodeRelease hi =>
      obtain ⟨hl, hclosed, K, hK, hKp⟩ := hg.leaving hi
      rw [hN] at hK
      cases hK
      exact hstays _ hl hKp hclosed
  | some N' =>
    refine ⟨N', rfl, ?_⟩
    rcases exec_old hg he hN' with ⟨K, hK, -, hKp | ⟨-, q, hl, hq, hclosed⟩⟩ | ⟨hnew, -⟩
    · rw [hN] at hK
      cases hK
      exact hKp.trans hp
    · rw [hN] at hK
      cases hK
      exact (hstays q hl hq hclosed).elim
    · exact absurd (hg.tables.nodeLt n N hN) (hnew ▸ lt_irrefl _)

/-- A closed process whose node stays the context manager has not got past its release. -/
theorem clearing_stays (he : s.exec L op = some s') (hN : s.node n = some N)
    (hp : N.proc = some p) (hc : s.ctxMgr (L.ctxOf p) = some n) (hc' : s'.ctxMgr (L.ctxOf p) = some n)
    (hw : s.closed p = true →
      ∃ (i : Nat) (rest : List Act), s.tasks[i]? = some ⟨.worker p, .clearMgr p :: rest⟩)
    (hclosed : s'.closed p = true) :
    ∃ (i : Nat) (rest : List Act), s'.tasks[i]? = some ⟨.worker p, .clearMgr p :: rest⟩ := by
  by_cases hold : s.closed p = true
  · obtain ⟨i, rest, hi⟩ := hw hold
    have hlt := (List.getElem?_eq_some_iff.mp hi).1
    rcases exec_tasks he with ⟨ts, hts⟩ | ⟨j, a, act, rest', acts, hj, hts, hrun⟩
    · exact ⟨i, rest, by rw [hts, List.getElem?_append_left hlt, hi]⟩
    · by_cases hij : j = i
      · subst hij
        rw [hi] at hj
        cases hj
        exfalso
        rcases hrun with ⟨k, ok, b, rest'', rfl, hk⟩ | ⟨x, b, target, hb⟩
        · obtain ⟨t, ht, hact⟩ := Option.bind_eq_some_iff.mp he
          rw [hk] at ht
          cases ht
          have hstep := execAct_cases hact
          clear hact he
          cases hstep with
          | clearMgr => simp [RefState.setTask, RefState.setMgr] at hc'
          | clearNone _ hnot => exact hnot n N hc hN hp
          | incFound hact => rcases hact with hact | hact <;> cases hact
          | dropWork hact | dropEnd hact => rcases hact with ⟨_, hact⟩ | ⟨_, hact⟩ <;> cases hact
        · cases hb
      · exact ⟨i, rest, by rw [hts, List.getElem?_set_ne hij, hi]⟩
  · rcases exec_closes he with hsame | ⟨q, rfl, hq⟩
    · rw [hsame] at hclosed
      exact absurd hclosed hold
    · rw [hq, Function.update_apply] at hclosed
      split at hclosed
      · rename_i hpq
        subst hpq
        cases exec_cases he with
        | close => exact ⟨s.tasks.length, _, List.getElem?_concat_length⟩
        | fails hop => rcases hop with hop | hop | ⟨_, hop⟩ <;> cases hop
      · exact absurd hclosed hold

theorem exec_mgr (h : Local L s) (hg : Good L s) (he : s.exec L op = some s') {c : CtxId}
    (hc : s'.ctxMgr c = some n) : ∃ N p, s'.node n = some N ∧ N.proc = some p ∧ L.ctxOf p = c ∧
      (s'.closed p = true →
        ∃ (i : Nat) (rest : List Act), s'.tasks[i]? = some ⟨.worker p, .clearMgr p :: rest⟩) := by
  -- it was the context manager before
  have old (hold : s.ctxMgr c = some n) : ∃ N p, s'.node n = some N ∧ N.proc = some p ∧ L.ctxOf p = c ∧
      (s'.closed p = true →
        ∃ (i : Nat) (rest : List Act), s'.tasks[i]? = some ⟨.worker p, .clearMgr p :: rest⟩) := by
    obtain ⟨N, p, hN, hp, rfl, hw⟩ := h.mgr c n hold
    obtain ⟨N', hN', hp'⟩ := h.mgr_stays hg he hN hp hold hw
    exact ⟨N', p, hN', hp', rfl, clearing_stays he hN hp hold hc hw⟩
  rcases exec_ctxMgr he with hsame | ⟨i, ok, a, act, rest, rfl, hi, ⟨c', m, M, rfl, hM, hnode, hmgr⟩ |
    ⟨p, rfl, -, hmgr⟩⟩
  · exact old (hsame ▸ hc)
  · rw [hmgr, Function.update_apply] at hc
    split at hc
    · rename_i hcc
      cases hc
      have hmem := List.mem_of_getElem? hi
      obtain ⟨x, rfl, rfl, rfl⟩ := (hg.shape.task _ hmem).ofBecomes
      obtain ⟨K, hK, hKp⟩ := h.own _ hmem x rfl _ List.mem_cons_self _ rfl
      rw [hM] at hK
      cases hK
      refine ⟨_, L.procOf x, (congrFun hnode _).trans (Function.update_self ..), hKp, hcc.symm,
        fun hclosed => ?_⟩
      rcases exec_closes he with hsame | ⟨q, hop, -⟩
      · rw [hsame, hg.shape.live x _ hmem (List.cons_ne_nil _ _)] at hclosed
        cases hclosed
      · cases hop
    · exact old hc
  · rw [hmgr, Function.update_apply] at hc
    split at hc
    · cases hc
    · exact old hc

/-- A task that works on a node of its owner has a temporary reference on it. -/
theorem own_putNode {t : Task} (h : Shaped L t) (hact : act ∈ t.acts) (hown : act.own = some n) :
    .putNode n ∈ t.acts := by
  have hop : act.isOp = false := by cases act <;> first | rfl | cases hown
  obtain ⟨a, acts⟩ := t
  cases h with
  | ops _ hall =>
    rw [hall act hact] at hop
    cases hop
  | checks _ hacts =>
    cases hacts
    rw [List.mem_singleton] at hact
    subst hact
    cases hown
  | done _ hacts | becomes _ hacts =>
    cases hacts
    rcases List.mem_cons.mp hact with rfl | hact
    · cases hown
      simp
    · rw [List.mem_singleton] at hact
      subst hact
      cases hown
  | builds _ hpre hacts =>
    cases hacts
    cases hpre <;> simp at hact <;> rcases hact with rfl | rfl | rfl <;> cases hown
  | releases _ hr =>
    cases hr <;> simp at hact <;> rcases hact with rfl | rfl | rfl | rfl | rfl | rfl <;> cases hown

theorem exec_own (h : Local L s) (hg : Good L s) (he : s.exec L op = some s') {t : Task}
    (ht : t ∈ s'.tasks) (hx : t.actor = .thread x) (hact : act ∈ t.acts) (hown : act.own = some n) :
    ∃ N, s'.node n = some N ∧ N.proc = some (L.procOf x) := by
  have hg' := hg.exec he
  have hfirst : act.first = true := by
    cases act <;> first | rfl | cases hown
  obtain ⟨N', hN'⟩ := hg'.tmp.node ht (own_putNode (hg'.shape.task t ht) hact hown)
  refine ⟨N', hN', ?_⟩
  have keeps {N : Node} (hN : s.node n = some N) (hp : N.proc = some (L.procOf x))
      (hl : ¬ Leaving s (L.procOf x) n) : N'.proc = some (L.procOf x) := by
    rcases exec_old hg he hN' with ⟨K, hK, -, hKp | ⟨-, q, hlq, hq, -⟩⟩ | ⟨hnew, -⟩
    · rw [hN] at hK
      cases hK
      exact hKp.trans hp
    · rw [hN] at hK
      cases hK
      rw [hp] at hq
      cases hq
      exact absurd hlq hl
    · exact absurd (hg.tables.nodeLt n N hN) (hnew ▸ lt_irrefl _)
  have found {ptr : Nat} (hget : s.getNode (L.procOf x) ptr = some n) : N'.proc = some (L.procOf x) := by
    obtain ⟨hmem, -⟩ := getNode_some hget
    obtain ⟨_, _, hid⟩ := hg.links.own hmem
    obtain ⟨N, hN, -, -, hp⟩ := ident_some.mp hid
    exact keeps hN hp fun hl => (hg.links.leaving hl).1 hmem
  rcases exec_first he ht hact hfirst with ⟨t', ht', hactor, hact'⟩ | hstart
  · obtain ⟨N, hN, hp⟩ := h.own t' ht' x (hactor.trans hx) act hact' n hown
    refine keeps hN hp fun ⟨i, rest, hi⟩ => ?_
    obtain ⟨a, acts⟩ := t'
    obtain rfl : a = .thread x := hactor.trans hx
    have hlive := hg.shape.live x acts ht' (List.ne_nil_of_mem hact')
    rw [hg.shape.worker _ _ (List.mem_of_getElem? hi)] at hlive
    cases hlive
  · rw [hx] at hstart
    cases hstart with
    | done hget =>
      cases hown
      exact found hget
    | becomeMgr _ hn =>
      cases hown
      rcases initNode_cases hn with ⟨N, hget, -, -⟩ | ⟨-, rfl, rfl⟩
      · exact found hget
      · simp only [RefState.addTask, RefState.setNode, Function.update_self, Option.some.injEq] at hN'
        rw [← hN']
        rfl

theorem exec (h : Local L s) (hg : Good L s) (he : s.exec L op = some s') : Local L s' where
  owed _ _ _ hf ht := h.exec_all hg he hf ht
  told _ _ hN := h.exec_told hg he hN
  apart _ _ _ hl hm := h.exec_apart hg he hl hm
  mgr _ _ hc := h.exec_mgr hg he hc
  own _ ht _ hx _ hact _ hown := h.exec_own hg he ht hx hact hown

end Local

theorem local_of_reach (h : (refSys L).Reach s) : Good L s ∧ Local L s :=
  Sys.Reach.inv (I := fun s => Good L s ∧ Local L s)
    (by rintro _ rfl; exact ⟨good_start, local_start⟩)
    (fun _ _ _ hi he => ⟨hi.1.exec he, hi.2.exec hi.1 he⟩) h

/-! ## The nodes that are freed -/

/-- A node that has been freed does not come back. -/
theorem exec_gone (ht : Tables s) (he : s.exec L op = some s') (hlt : n < s.nextNode)
    (hn : s.node n = none) : s'.node n = none := by
  by_contra hne
  obtain ⟨N', hN'⟩ := Option.ne_none_iff_exists'.mp hne
  rcases exec_turns ht he hN' with ⟨N, hN, -⟩ | ⟨hnew, -⟩
  · rw [hn] at hN
    cases hN
  · exact lt_irrefl _ (hnew ▸ hlt)

/-- A step frees a node only when nothing but that step refers to it: no reference and no temporary
reference is left, no context has it as its manager, it is on no work list, and, while its process is
open, no buffer that is built or sent has it as its target, and no task has a `binder_dec_node` of it left
to do, as for a buffer that it releases. It stays freed. -/
theorem nodeFree_unreferenced (h : (refSys L).Reach s) (he : s.exec L op = some s')
    (hN : s.node n = some N) (hgone : s'.node n = none) :
    (∃ M, FreesNode L s n op M ∧ M.work = none) ∧
      (∀ r R, s'.ref r = some R → R.node ≠ n) ∧
      (∀ t ∈ s'.tasks, ∀ act ∈ t.acts, act.tmp n = 0) ∧
      (∀ c, s.ctxMgr c ≠ some n) ∧
      (∀ p, N.proc = some p → s.closed p = false →
        (∀ B ∈ s'.bufs, B.status = .building ∨ B.status = .sent → B.targetNode ≠ some n) ∧
        ∀ t ∈ s'.tasks, ∀ act ∈ t.acts, ∀ strong, act ≠ .decNode n strong) ∧
      ∀ s'', (Sys.ofExec (· = s') (RefState.exec L)).Reach s'' → s''.node n = none := by
  obtain ⟨hg, hl⟩ := local_of_reach h
  have hg' := hg.exec he
  -- nothing is owed to a node that goes while its process is open
  have settled {p : ProcId} (hp : N.proc = some p) (hopen : s.closed p = false) :
      ∃ pl, ∀ strong, s'.owed n pl strong = 0 := by
    obtain ⟨pl, hf⟩ := Local.exists_fits hg.links hN hp
    refine ⟨pl, fun strong => ?_⟩
    have howed : (s'.owed n pl strong : Int) ≤ s'.spareOf L n strong := by
      refine hl.exec_owed hg he hf (.inr ⟨N, p, hN, hp⟩) fun q i ok a rest _ hi => ?_
      obtain ⟨-, hclosed, K, hK, hq⟩ := hg.leaving hi
      rw [hN] at hK
      cases hK
      rw [hp] at hq
      cases hq
      rw [hopen] at hclosed
      cases hclosed
    rw [spareOf_none hgone] at howed
    omega
  refine ⟨exec_freed hg.tables he hN hgone, fun r R hR hn => ?_, fun t ht act hact => ?_, fun c hc => ?_,
    fun p hp hopen => ⟨fun B hB hst htarget => ?_, fun t ht act hact strong hdec => ?_⟩, fun s'' hs'' => ?_⟩
  · obtain ⟨M, hM, -⟩ := hg'.tables.onNode r R hR
    rw [hn, hgone] at hM
    cases hM
  · obtain ⟨i, hi⟩ := List.getElem?_of_mem ht
    have hle := le_acting (f := Act.tmp n) hi hact
    have htmp := hg'.tmp n
    simp only [RefState.tmpOf, hgone, Option.map_none, Option.getD_none] at htmp
    omega
  · obtain ⟨K, q, hK, hq, rfl, hw⟩ := hl.mgr c n hc
    obtain ⟨N', hN', -⟩ := hl.mgr_stays hg he hK hq hc hw
    rw [hgone] at hN'
    cases hN'
  · obtain ⟨pl, hzero⟩ := settled hp hopen
    obtain ⟨b, hb⟩ := List.getElem?_of_mem hB
    have hle := le_holding (f := Buffer.owes n pl true) hb
    have hone : 1 ≤ B.owes n pl true := by simp [Buffer.owes, hst, htarget]
    have := hzero true
    simp only [RefState.owed] at this
    omega
  · obtain ⟨pl, hzero⟩ := settled hp hopen
    obtain ⟨j, hj⟩ := List.getElem?_of_mem ht
    have hle := le_acting (f := Act.owes n pl strong) hj hact
    simp only [hdec, Act.owes, true_and, if_true] at hle
    have := hzero strong
    simp only [RefState.owed] at this
    omega
  · have hlt : n < s'.nextNode := (hg.tables.nodeLt n N hN).trans_le (exec_nextNode hg.tables he)
    have hkeep := Sys.Reach.inv (I := fun t => Tables t ∧ n < t.nextNode ∧ t.node n = none)
      (by rintro _ rfl; exact ⟨hg'.tables, hlt, hgone⟩)
      (fun t _ t' ht het => ⟨ht.1.exec het, ht.2.1.trans_le (exec_nextNode ht.1 het),
        exec_gone ht.1 het ht.2.1 ht.2.2⟩) hs''
    exact hkeep.2.2

/-- A process becomes the context manager, closes, and comes to the release of its node. -/
def closeMgr : List RefOp :=
  [.setCtxMgr 0 0 0, .run 0 true, .run 0 true, .close 0, .run 1 true, .run 1 true, .run 1 true,
    .run 1 true]

/-- The state after it, where the worker is about to release the node 0. -/
def beforeNodeRelease : RefState :=
  (Sys.execIf (RefState.exec oneThread) (fun _ _ => True) start closeMgr).get (by decide)

theorem reach_beforeNodeRelease : (refSys oneThread).Reach beforeNodeRelease :=
  Sys.ReachIf.execIf (.init rfl) (Option.some_get _).symm

/-- The state after the node is released, and freed. -/
def afterNodeRelease : RefState :=
  (RefState.exec oneThread beforeNodeRelease (.run 1 true)).get (by decide)

theorem nodeFree_beforeNodeRelease : (∀ c, beforeNodeRelease.ctxMgr c ≠ some 0) ∧
    ∃ M, FreesNode oneThread beforeNodeRelease 0 (.run 1 true) M ∧ M.work = none := by
  obtain ⟨N, hN⟩ := Option.isSome_iff_exists.mp (show (beforeNodeRelease.node 0).isSome = true by decide)
  have he : RefState.exec oneThread beforeNodeRelease (.run 1 true) = some afterNodeRelease :=
    (Option.some_get _).symm
  have h := nodeFree_unreferenced reach_beforeNodeRelease he hN (by decide)
  exact ⟨h.2.2.2.1, h.1⟩

/-- `binder_node_release` frees a node while it holds a temporary reference on it. -/
theorem nodeRelease_holds_tmpRef : ¬ ∀ L s op s' n N, (refSys L).Reach s → s.exec L op = some s' →
    s.node n = some N → s'.node n = none → ∀ M, FreesNode L s n op M → M.tmpRefs = 0 := by
  intro h
  obtain ⟨N, hN⟩ := Option.isSome_iff_exists.mp (show (beforeNodeRelease.node 0).isSome = true by decide)
  have hone : N.tmpRefs = 1 ∧ N.refs = [] := by
    have hN' : ∀ K, beforeNodeRelease.node 0 = some K → K.tmpRefs = 1 ∧ K.refs = [] := by decide
    exact hN' N hN
  have hzero := h oneThread beforeNodeRelease (.run 1 true) afterNodeRelease 0 N reach_beforeNodeRelease
    (Option.some_get _).symm hN (by decide) _ (.nodeRelease (a := .worker 0) (p := 0) rfl hN hone.2 hone.1)
  exact absurd (hone.1.symm.trans hzero) (by decide)

end Redroid.Binder.Refs
