import Redroid.Binder.RefTurns
import Redroid.Binder.Translate

/-!
# What an object means on its way

* `sendSys`: the runs of the system of `Redroid.Binder.Refs` with whole translations as further
  steps, from any state.
* `Tracks`: which nodes and references of a later state are those of an earlier one.
* `Journey`: an object goes from process to process.
* `translate_sound`: what is sent and what is received mean the same node, unless the target is its
  owner and is just releasing it; an object that comes back to its owner is as it was; the same node
  has the same handle.
-/

namespace Redroid.Binder.Refs

open RefState

/-- The steps of the system, and the translation of one object. -/
inductive SendOp where
  | op (op : RefOp)
  | send (x : ThreadId) (q : ProcId) (o : FlatObject) (e : ObjEnv)
  deriving DecidableEq, Repr

/-- The state after a step. -/
def RefState.sendExec (L : Layout) (s : RefState) : SendOp → Option RefState
  | .op op => s.exec L op
  | .send x q o e => do
    guard (L.procOf x ≠ q)
    (s.translate L x q o e).map Prod.snd

/-- The runs from the state `s₀`. -/
def sendSys (L : Layout) (s₀ : RefState) : Sys RefState SendOp := .ofExec (· = s₀) (RefState.sendExec L)

/-- The nodes and references of `s'` that were there in `s` are the same ones; only a node of a closed
process loses its process. -/
structure Tracks (s s' : RefState) : Prop where
  node : ∀ {n ptr cookie o'}, s'.ident n = some (ptr, cookie, o') → s.nextNode ≤ n ∨
    ∃ o, s.ident n = some (ptr, cookie, o) ∧ (o' = o ∨ o' = none ∧ ∀ p, o = some p → s'.closed p = true)
  ref : ∀ {r R'}, s'.ref r = some R' → s.nextRef ≤ r ∨
    ∃ R, s.ref r = some R ∧ R'.proc = R.proc ∧ R'.desc = R.desc ∧ R'.node = R.node
  nextNode : s.nextNode ≤ s'.nextNode
  nextRef : s.nextRef ≤ s'.nextRef
  closed : ∀ {p}, s.closed p = true → s'.closed p = true

variable {L : Layout} {s s' s₀ s₁ s₂ : RefState} {n : NodeId} {N : Node} {p q : ProcId} {r : RefId}
  {R : Ref} {x : ThreadId} {o o' : FlatObject} {e : ObjEnv} {c : Change} {op : RefOp}

/-! ## Invariants -/

theorem Good.core (h : Good L s) : Core s := by
  refine ⟨h.tables, h.covered, h.links, h.descs, fun {p n} hl => ?_⟩
  obtain ⟨j, rest, hj⟩ := hl
  have hle := h.tmp n
  have := le_acting (f := Act.tmp n) hj List.mem_cons_self
  simp only [Act.tmp, if_true] at this
  omega

theorem Shape.of_env (h : Shape L s) (henv : s'.env = s.env) : Shape L s' := by
  obtain ⟨h₁, h₂, h₃, h₄⟩ := h
  rw [← env_tasks henv] at h₁ h₂ h₃ h₄
  rw [← env_closed henv] at h₂ h₃
  exact ⟨h₁, h₂, h₃, h₄⟩

/-- A call that leaves the temporary references. -/
theorem Good.effect (h : Good L s) (he : Effect q c s s') (hc : c.2.2 = 0) : Good L s' := by
  refine ⟨he.core.tables, he.core.covered, h.shape.of_env he.moves.env, h.builds.of_env he.moves.env,
    fun n => ?_,
    he.core.links, he.core.descs⟩
  have ht : s'.tmpOf n = s.tmpOf n := by
    have := congrFun (congrArg (fun v : Change => v.2.2) he.view) n
    simpa [RefState.view, hc] using this
  have hact : s'.acting (Act.tmp n) = s.acting (Act.tmp n) := by
    rw [RefState.acting, RefState.acting, env_tasks he.moves.env]
  rw [ht, hact]
  exact h.tmp n

theorem Hit.change_tmp (hit : Hit) : hit.change.2.2 = 0 := by cases hit <;> rfl

namespace Tracks

theorem refl (s : RefState) : Tracks s s :=
  ⟨fun {_ _ _ o'} h => .inr ⟨o', h, .inl rfl⟩, fun {_ R'} h => .inr ⟨R', h, rfl, rfl, rfl⟩, le_refl _,
    le_refl _, fun h => h⟩

theorem trans (h₁ : Tracks s s₁) (h₂ : Tracks s₁ s₂) : Tracks s s₂ where
  node hi := by
    rcases h₂.node hi with hlt | ⟨o₁, hi₁, ho₁⟩
    · exact .inl (h₁.nextNode.trans hlt)
    rcases h₁.node hi₁ with hlt | ⟨o, hi₀, ho⟩
    · exact .inl hlt
    refine .inr ⟨o, hi₀, ?_⟩
    rcases ho₁ with rfl | ⟨rfl, hcl⟩
    · exact ho.imp_right fun ⟨h, hcl⟩ => ⟨h, fun p hp => h₂.closed (hcl p hp)⟩
    · refine .inr ⟨rfl, fun p hp => ?_⟩
      rcases ho with rfl | ⟨-, hcl'⟩
      · exact hcl p hp
      · exact h₂.closed (hcl' p hp)
  ref hR := by
    rcases h₂.ref hR with hlt | ⟨R₁, hR₁, hp, hd, hn⟩
    · exact .inl (h₁.nextRef.trans hlt)
    rcases h₁.ref hR₁ with hlt | ⟨R, hR, hp', hd', hn'⟩
    · exact .inl hlt
    · exact .inr ⟨R, hR, hp.trans hp', hd.trans hd', hn.trans hn'⟩
  nextNode := h₁.nextNode.trans h₂.nextNode
  nextRef := h₁.nextRef.trans h₂.nextRef
  closed hc := h₂.closed (h₁.closed hc)

theorem of_moves (h : Moves q s s') : Tracks s s' where
  node {n ptr cookie o'} hi := (h.ident hi).symm.imp_right fun hi => ⟨o', hi, .inl rfl⟩
  ref hR := (h.refs hR).symm
  nextNode := h.nextNode
  nextRef := h.nextRef
  closed hc := by rwa [env_closed h.env]

end Tracks

theorem exec_closed (h : s.exec L op = some s') (hc : s.closed p = true) : s'.closed p = true := by
  rcases exec_closes h with hs | ⟨q, -, hs⟩
  · rwa [hs]
  · rw [hs, Function.update_apply]
    split
    · rfl
    · exact hc

theorem exec_tracks (hg : Good L s) (h : s.exec L op = some s') : Tracks s s' := by
  have hstep := exec_refStep h hg.tables.fresh
  refine ⟨fun {n ptr cookie o'} hi => ?_, fun hR => ?_, (hstep.next hg.tables).1,
    (hstep.next hg.tables).2, exec_closed h⟩
  rotate_left
  · rcases hstep.refs hg.tables hR with hold | ⟨rfl, -, -⟩
    · exact .inr hold
    · exact .inl le_rfl
  have same {f : NodeId → Option (Nat × Nat × Option ProcId)} (hf : s'.ident = f) (hk : f n = s.ident n) :
      s.nextNode ≤ n ∨ ∃ o, s.ident n = some (ptr, cookie, o) ∧
        (o' = o ∨ o' = none ∧ ∀ p, o = some p → s'.closed p = true) :=
    .inr ⟨o', by rw [← hk, ← hf, hi], .inl rfl⟩
  cases exec_nodeStep hg.tables hg.tmp hg.shape h with
  | keep hk | find _ hk | unlink _ _ hk => exact same hk rfl
  | @free m _ _ hk | @gone _ _ _ m _ _ hk =>
    by_cases hn : n = m
    · rw [hk, hn, Function.update_self] at hi
      cases hi
    · exact same hk (Function.update_of_ne hn ..)
  | @new _ m _ _ hm _ _ hk =>
    by_cases hn : n = m
    · exact .inl (by rw [hn, hm])
    · exact same hk (Function.update_of_ne hn ..)
  | @reset i a p m N rest ht hN hk =>
    by_cases hn : n = m
    · subst hn
      rw [hk, Function.update_self] at hi
      cases hi
      have hl := hg.shape.leaving (List.mem_of_getElem? ht) List.mem_cons_self
      obtain ⟨-, ptr, cookie, hid⟩ := hg.links.leaving hl
      obtain ⟨M, hM, rfl, rfl, -⟩ := ident_some.mp hid
      rw [hN] at hM
      cases hM
      refine .inr ⟨some p, hid, .inr ⟨rfl, ?_⟩⟩
      rintro _ ⟨⟩
      obtain ⟨j, rest', hj⟩ := hl
      exact exec_closed h (hg.shape.worker p _ (List.mem_of_getElem? hj))
    · exact same hk (Function.update_of_ne hn ..)

/-- A later state has the invariants, and tracks the earlier one. -/
theorem sendSys_inv (hg : Good L s₀) (h : (sendSys L s₀).Reach s) : Good L s ∧ Tracks s₀ s := by
  refine h.inv (I := fun s => Good L s ∧ Tracks s₀ s) ?_ ?_
  · rintro _ rfl
    exact ⟨hg, .refl _⟩
  · rintro s a s' ⟨hg, ht⟩ he
    cases a with
    | op op =>
      exact ⟨hg.exec he, ht.trans (exec_tracks hg he)⟩
    | send x q o e =>
      obtain ⟨hpq, he⟩ := guard_bind he
      obtain ⟨⟨res, s₁⟩, hs₁, rfl⟩ := Option.map_eq_some_iff.mp he
      rcases translate_cases hg.core hpq hs₁ with ⟨-, he⟩ | ⟨_, _, hit, -, -, -, he⟩
      · exact ⟨hg.effect he rfl, ht.trans (.of_moves he.moves)⟩
      · exact ⟨hg.effect he hit.change_tmp, ht.trans (.of_moves he.moves)⟩

/-! ## Journeys -/

/-- The object `o` of `p` is sent to `q`, which gets `o'`. `binder_transaction` refuses a target in the
sender's own process. -/
def Hop (L : Layout) (s : RefState) (p : ProcId) (o : FlatObject) (s' : RefState) (q : ProcId)
    (o' : FlatObject) : Prop :=
  p ≠ q ∧ ∃ x e, L.procOf x = p ∧ s.translate L x q o e = some (some o', s')

/-- The object `o₀` of `p₀` is sent from process to process; between two hops anything happens, but the
process that has the object keeps it. -/
inductive Journey (L : Layout) (s₀ : RefState) (p₀ : ProcId) (o₀ : FlatObject) :
    RefState → ProcId → FlatObject → Prop
  | first {s : RefState} {q : ProcId} {o : FlatObject} : Hop L s₀ p₀ o₀ s q o →
      Journey L s₀ p₀ o₀ s q o
  | next {s s₁ s₂ : RefState} {p q : ProcId} {o o' : FlatObject} : Journey L s₀ p₀ o₀ s p o →
      (sendSys L s).Reach s₁ → s₁.denotes p o = s.denotes p o → Hop L s₁ p o s₂ q o' →
      Journey L s₀ p₀ o₀ s₂ q o'

theorem Hop.sent (hg : Good L s) (h : Hop L s p o s' q o') : ∃ (n : NodeId) (hit : Hit), Sent p q o o' n s s' ∧
    Effect q hit.change s s' ∧ KeepsRefs s s' := by
  obtain ⟨hpq, x, e, rfl, ht⟩ := h
  rcases translate_cases hg.core hpq ht with ⟨hf, -⟩ | ⟨_, n, hit, hres, hs, -, he⟩
  · cases hf
  · cases hres
    exact ⟨n, hit, hs, he, translate_keeps hg.tables.fresh ht⟩

/-- A node that is being released is one of the process that releases it. -/
theorem Good.leaving_proc (hg : Good L s) (hl : Leaving s q n) (hN : s.node n = some N) :
    N.proc = some q ∧ s.closed q = true := by
  obtain ⟨-, ptr, cookie, hid⟩ := hg.links.leaving hl
  obtain ⟨M, hM, -, -, hMp⟩ := ident_some.mp hid
  rw [hN] at hM
  cases hM
  obtain ⟨j, rest, hj⟩ := hl
  exact ⟨hMp, hg.shape.worker q _ (List.mem_of_getElem? hj)⟩

theorem Hop.good (hop : Hop L s p o s' q o') (hg : Good L s) : Good L s' ∧ Tracks s s' := by
  obtain ⟨n, hit, -, he, -⟩ := hop.sent hg
  exact ⟨hg.effect he hit.change_tmp, .of_moves he.moves⟩

theorem Journey.good {p₀ : ProcId} {o₀ : FlatObject} (h : Journey L s₀ p₀ o₀ s q o) (hg : Good L s₀) :
    Good L s ∧ Tracks s₀ s := by
  induction h with
  | first hop => exact hop.good hg
  | next _ hlater _ hop ih =>
    obtain ⟨hgs, hts⟩ := ih
    obtain ⟨hg₁, ht₁⟩ := sendSys_inv hgs hlater
    obtain ⟨hg₂, ht₂⟩ := hop.good hg₁
    exact ⟨hg₂, (hts.trans ht₁).trans ht₂⟩

/-- The target has the node, unless it is its owner and closed. -/
theorem Sent.denotes_target (hs : Sent p q o o' n s s') (he : Effect q c s s') (hg : Good L s')
    (hN : s'.node n = some N) (hopen : N.proc = some q → s'.closed q = false) : s'.denotes q o' = some n := by
  refine hs.target.mpr fun hl => ?_
  obtain ⟨hp, hclosed⟩ := hg.leaving_proc (he.moves.leaving.mpr hl) hN
  rw [hopen hp] at hclosed
  cases hclosed

/-- An object of the owner, wherever it is, as long as the owner is open: it means the node of the
owner. -/
theorem Journey.sent {p₀ : ProcId} {o₀ : FlatObject} (h : Journey L s₀ p₀ o₀ s q o) (hg : Good L s₀)
    (ho : o₀.isBinder = true) (hcl : s.closed p₀ = false) : o.strong = o₀.strong ∧
      ∃ n N, s.denotes q o = some n ∧ s.node n = some N ∧ N.ptr = o₀.binder ∧ N.cookie = o₀.cookie ∧
        N.proc = some p₀ ∧ (N.proc = some q ∧ o = .ofBinder o₀.strong o₀.binder o₀.cookie ∨
          N.proc ≠ some q ∧ ∃ desc, o = .ofHandle o₀.strong desc) := by
  induction h with
  | @first s q o hop =>
    obtain ⟨n, hit, hs, he, -⟩ := hop.sent hg
    obtain ⟨N, hN, hobj, hown⟩ := hs.object
    obtain ⟨hptr, hcookie, hproc⟩ := hown ho
    have hopen (hq : N.proc = some q) : s.closed q = false := by
      rw [hproc] at hq
      rwa [← Option.some.inj hq]
    refine ⟨hs.strong, n, N, hs.denotes_target he (hop.good hg).1 hN hopen, hN, hptr, hcookie, hproc, ?_⟩
    rw [hptr, hcookie] at hobj
    exact hobj.imp_right fun ⟨hne, desc, _, ho⟩ => ⟨hne, desc, ho⟩
  | @next s s₁ s₂ p q o o' hj hlater hkeep hop ih =>
    have hgs := (hj.good hg).1
    obtain ⟨hg₁, ht₁⟩ := sendSys_inv hgs hlater
    obtain ⟨hg₂, ht₂⟩ := hop.good hg₁
    have htr := ht₁.trans ht₂
    have hopen : s.closed p₀ = false := by
      by_contra hc
      rw [htr.closed (by simpa using hc)] at hcl
      cases hcl
    obtain ⟨hstrong, n, N, hd, hN, hptr, hcookie, hproc, hobj⟩ := ih hopen
    obtain ⟨m, hit, hs, he, -⟩ := hop.sent hg₁
    -- the object means the same node for the second hop
    obtain rfl : m = n := by
      rcases hs.before with hb | ⟨-, hb⟩
      · rw [hkeep, hd] at hb
        exact (Option.some.inj hb).symm
      · rw [hkeep, hd] at hb
        cases hb
    obtain ⟨M, hM, hobj', -⟩ := hs.object
    rcases htr.node (ident_some.mpr ⟨M, hM, rfl, rfl, rfl⟩) with hlt | ⟨pr, hi, hpr⟩
    · exact absurd hlt (Nat.not_le.mpr (hgs.tables.nodeLt m N hN))
    obtain ⟨K, hK, hKptr, hKcookie, rfl⟩ := ident_some.mp hi
    rw [hN] at hK
    cases hK
    have hMp : M.proc = some p₀ := by
      rcases hpr with hpr | ⟨-, hpr⟩
      · exact hpr.trans hproc
      · rw [hpr p₀ hproc] at hcl
        cases hcl
    have hMptr : M.ptr = o₀.binder := hKptr.symm.trans hptr
    have hMcookie : M.cookie = o₀.cookie := hKcookie.symm.trans hcookie
    have htarget (hq : M.proc = some q) : s₂.closed q = false := by
      rw [hMp] at hq
      rwa [← Option.some.inj hq]
    refine ⟨hs.strong.trans hstrong, m, M, hs.denotes_target he hg₂ hM htarget, hM, hMptr, hMcookie, hMp, ?_⟩
    rw [hMptr, hMcookie, hstrong] at hobj'
    exact hobj'.imp_right fun ⟨hne, desc, _, ho⟩ => ⟨hne, desc, ho⟩

/-- While the process 1 sends to the context manager, that is closed and takes its node off its tree. -/
def whileReleasing : List RefOp :=
  acquireMgr ++ [.transaction 1 0, .run 2 true, .close 0, .run 3 true, .run 3 true, .run 3 true,
    .run 3 true]

def releasing : RefState :=
  (Sys.execIf (RefState.sendExec oneThread) (fun _ _ => True) start (whileReleasing.map .op)).get (by decide)

end Redroid.Binder.Refs
