import Redroid.Binder.RefFree

/-!
# Registering a context manager

`binder_ioctl_set_ctx_mgr`, with the user that a context is bound to, over the system of nodes and
references.

* `MgrState`: that system, with `binder_context_mgr_uid` of each context. `setCtxMgr`: the ioctl; the
  lock of the context manager is held from its first step to the one that sets the node.
* `Wins`, `Pins`: an attempt that succeeds; one that binds the context to its user and then fails.
* `ctxMgr_exclusive`: what holds of each attempt and each context in every run.
-/

namespace Redroid.Binder.Refs

open RefState

/-- Why `binder_ioctl_set_ctx_mgr` fails; `security`: with the error of the security hook. -/
inductive MgrError where
  | busy | security | perm | noMem
  deriving DecidableEq, Repr

/-- `uid`: `binder_context_mgr_uid`, `none` where it is not valid. -/
structure MgrState where
  refs : RefState
  uid : CtxId → Option Nat

/-- A call of `BINDER_SET_CONTEXT_MGR(_EXT)`. `security`, `alloc`: whether the hook allows it, and
whether `kzalloc` of the node succeeds. -/
structure Attempt where
  x : ThreadId
  ptr : Nat
  cookie : Nat
  euid : Nat
  security : Bool
  alloc : Bool
  deriving DecidableEq, Repr

/-- The context of the process that calls. -/
def Attempt.ctx (L : Layout) (a : Attempt) : CtxId := L.ctxOf (L.procOf a.x)

namespace MgrState

variable (L : Layout) (s : MgrState) (a : Attempt)

/-- From `binder_new_node` on. -/
def newMgr : Option (Except MgrError Unit × MgrState) :=
  if a.alloc then do
    let r ← s.refs.exec L (.setCtxMgr a.x a.ptr a.cookie)
    some (.ok (), { s with refs := r })
  else some (.error .noMem, s)

/-- `binder_ioctl_set_ctx_mgr`: the result, and the state after it. -/
def setCtxMgr : Option (Except MgrError Unit × MgrState) := do
  guard (s.refs.idle L a.x)
  guard (s.refs.ctxFree (a.ctx L))
  if (s.refs.ctxMgr (a.ctx L)).isSome then some (.error .busy, s)
  else if !a.security then some (.error .security, s)
  else match s.uid (a.ctx L) with
    | some uid => if uid ≠ a.euid then some (.error .perm, s) else s.newMgr L a
    | none => newMgr L { s with uid := Function.update s.uid (a.ctx L) (some a.euid) } a

end MgrState

/-- An attempt, or any other step. -/
inductive MgrOp where
  | attempt (a : Attempt)
  | other (op : RefOp)
  deriving DecidableEq, Repr

/-- The state after a step. -/
def MgrState.exec (L : Layout) (s : MgrState) : MgrOp → Option MgrState
  | .attempt a => do
    let (_, s) ← s.setCtxMgr L a
    some s
  | .other (.setCtxMgr ..) => none
  | .other op => do
    let r ← s.refs.exec L op
    some { s with refs := r }

/-- The state before any ioctl: the contexts are bound to no user. -/
def mgrStart : MgrState := ⟨start, fun _ => none⟩

/-- The runs with any attempts of any users, and any other steps. -/
def mgrSys (L : Layout) : Sys MgrState MgrOp := .ofExec (· = mgrStart) (MgrState.exec L)

/-- The step is an attempt for the context `c` by the user `euid`, and succeeds. -/
def Wins (L : Layout) (c : CtxId) (euid : Nat) (s : MgrState) : MgrOp → Prop
  | .attempt a => a.ctx L = c ∧ a.euid = euid ∧ ∃ s', s.setCtxMgr L a = some (.ok (), s')
  | _ => False

/-- The node allocation fails, after the context was bound to a user for the first time. -/
def Pins (L : Layout) (s : MgrState) (a : Attempt) : Bool :=
  (s.refs.ctxMgr (a.ctx L)).isNone && a.security && (s.uid (a.ctx L)).isNone && !a.alloc

variable {L : Layout} {s s' : MgrState} {a : Attempt} {c : CtxId} {op : MgrOp}
  {res : Except MgrError Unit}

/-- What an attempt does. -/
theorem setCtxMgr_cases (h : s.setCtxMgr L a = some (res, s')) :
    (∃ e, res = .error e ∧ s' = s ∧ Pins L s a = false) ∨
    (res = .error .noMem ∧ Pins L s a = true ∧
      s' = { s with uid := Function.update s.uid (a.ctx L) (some a.euid) }) ∨
    (res = .ok () ∧ s.refs.ctxMgr (a.ctx L) = none ∧
      (s.uid (a.ctx L) = none ∨ s.uid (a.ctx L) = some a.euid) ∧
      s'.uid = Function.update s.uid (a.ctx L) (some a.euid) ∧
      s.refs.exec L (.setCtxMgr a.x a.ptr a.cookie) = some s'.refs) := by
  have new {t : MgrState} (h : t.newMgr L a = some (res, s')) :
      (a.alloc = false ∧ res = .error .noMem ∧ s' = t) ∨
        (a.alloc = true ∧ res = .ok () ∧ s'.uid = t.uid ∧
          t.refs.exec L (.setCtxMgr a.x a.ptr a.cookie) = some s'.refs) := by
    simp only [MgrState.newMgr] at h
    split at h
    · obtain ⟨r, hr, h⟩ := Option.bind_eq_some_iff.mp h
      cases h
      exact .inr ⟨‹_›, rfl, rfl, hr⟩
    · cases h
      exact .inl ⟨by simpa using ‹¬ a.alloc = true›, rfl, rfl⟩
  obtain ⟨-, h⟩ := guard_bind h
  obtain ⟨-, h⟩ := guard_bind h
  split at h
  · rename_i hbusy
    cases h
    exact .inl ⟨_, rfl, rfl, by simp [Pins, Option.isNone_eq_false_iff.mpr hbusy]⟩
  rename_i hbusy
  replace hbusy : s.refs.ctxMgr (a.ctx L) = none := by simpa using hbusy
  split at h
  · rename_i hsec
    cases h
    exact .inl ⟨_, rfl, rfl, by simp_all [Pins]⟩
  rename_i hsec
  split at h
  · rename_i uid hu
    split at h
    · cases h
      exact .inl ⟨_, rfl, rfl, by simp [Pins, hu]⟩
    · rename_i heq
      rw [not_not] at heq
      subst heq
      rcases new h with ⟨-, rfl, rfl⟩ | ⟨-, rfl, huid, hr⟩
      · exact .inl ⟨_, rfl, rfl, by simp [Pins, hu]⟩
      · refine .inr (.inr ⟨rfl, hbusy, .inr hu, ?_, hr⟩)
        rw [huid, ← hu, Function.update_eq_self]
  · rename_i hu
    rcases new h with ⟨halloc, rfl, rfl⟩ | ⟨-, rfl, huid, hr⟩
    · exact .inr (.inl ⟨rfl, by simp_all [Pins], rfl⟩)
    · exact .inr (.inr ⟨rfl, hbusy, .inl hu, huid, hr⟩)

/-- What a step does to the users that the contexts are bound to. -/
theorem exec_uid (h : s.exec L op = some s') :
    (s'.refs = s.refs ∨ ∃ rop, s.refs.exec L rop = some s'.refs) ∧
      ((s'.uid = s.uid ∧ ∀ c u, ¬ Wins L c u s op) ∨
        ∃ a, op = .attempt a ∧ s'.uid = Function.update s.uid (a.ctx L) (some a.euid) ∧
          ((s.uid (a.ctx L) = none ∧ Pins L s a = true ∧ ∀ c u, ¬ Wins L c u s op) ∨
            ((s.uid (a.ctx L) = none ∨ s.uid (a.ctx L) = some a.euid) ∧
              Wins L (a.ctx L) a.euid s op))) := by
  cases op with
  | attempt a =>
    obtain ⟨⟨res, t⟩, ht, h⟩ := Option.bind_eq_some_iff.mp h
    cases h
    have lost {e : MgrError} (he : res = .error e) (c : CtxId) (u : Nat) : ¬ Wins L c u s (.attempt a) := by
      rintro ⟨-, -, t', ht'⟩
      rw [ht, he] at ht'
      cases ht'
    rcases setCtxMgr_cases ht with ⟨e, he, rfl, -⟩ | ⟨he, hpin, rfl⟩ | ⟨rfl, -, hu, huid, hr⟩
    · exact ⟨.inl rfl, .inl ⟨rfl, lost he⟩⟩
    · refine ⟨.inl rfl, .inr ⟨a, rfl, rfl, .inl ⟨?_, hpin, lost he⟩⟩⟩
      simp only [Pins, Bool.and_eq_true, Option.isNone_iff_eq_none] at hpin
      exact hpin.1.2
    · exact ⟨.inr ⟨_, hr⟩, .inr ⟨a, rfl, huid, .inr ⟨hu, rfl, rfl, _, ht⟩⟩⟩
  | other rop =>
    cases rop with
    | setCtxMgr => cases h
    | _ =>
      obtain ⟨r, hr, h⟩ := Option.bind_eq_some_iff.mp h
      cases h
      exact ⟨.inr ⟨_, hr⟩, .inl ⟨rfl, fun _ _ => id⟩⟩

/-- The nodes and references of a run are those of a run of their system. -/
theorem refs_of_run {past : List (MgrState × MgrOp)} (h : (mgrSys L).Run past s) :
    (refSys L).Reach s.refs := by
  induction h with
  | init h0 =>
    cases h0
    exact .init rfl
  | step _ hst ih =>
    rcases (exec_uid hst).1 with heq | ⟨rop, hr⟩
    · rwa [heq]
    · exact ih.next hr

/-- A context stays bound to the user that has registered its manager. -/
theorem uid_of_wins {past : List (MgrState × MgrOp)} (h : (mgrSys L).Run past s) {u : Nat}
    {q : MgrState × MgrOp} (hq : q ∈ past) (hw : Wins L c u q.1 q.2) : s.uid c = some u := by
  induction h with
  | init => cases hq
  | @step past s s' op hrun hst ih =>
    rcases (exec_uid hst).2 with ⟨huid, hno⟩ | ⟨a, rfl, huid, hwin⟩
    · rcases List.mem_cons.mp hq with rfl | hq
      · exact absurd hw (hno c u)
      · rw [huid]
        exact ih hq
    · rcases List.mem_cons.mp hq with rfl | hq
      · obtain ⟨rfl, rfl, -⟩ := hw
        rw [huid, Function.update_self]
      · have hold := ih hq
        rw [huid, Function.update_apply]
        split
        · rename_i hc
          subst hc
          rcases hwin with ⟨hnone, -⟩ | ⟨hnone | hsome, -⟩
          · rw [hold] at hnone
            cases hnone
          · rw [hold] at hnone
            cases hnone
          · rw [← hsome, hold]
        · exact hold

/-- A context that no failed attempt has bound is bound to a user that has registered. -/
theorem wins_of_uid {past : List (MgrState × MgrOp)} (h : (mgrSys L).Run past s)
    (hpast : ∀ q ∈ past, ∀ a, q.2 = .attempt a → Pins L q.1 a = false) {u : Nat} (hu : s.uid c = some u) :
    ∃ q ∈ past, Wins L c u q.1 q.2 := by
  induction h with
  | init h0 =>
    cases h0
    cases hu
  | @step past s s' op hrun hst ih =>
    have old (hold : s.uid c = some u) : ∃ q ∈ (s, op) :: past, Wins L c u q.1 q.2 := by
      obtain ⟨q, hq, hw⟩ := ih (fun q hq => hpast q (List.mem_cons_of_mem _ hq)) hold
      exact ⟨q, List.mem_cons_of_mem _ hq, hw⟩
    rcases (exec_uid hst).2 with ⟨huid, -⟩ | ⟨a, rfl, huid, hwin⟩
    · exact old (huid ▸ hu)
    · rw [huid, Function.update_apply] at hu
      split at hu
      · rename_i hc
        subst hc
        cases hu
        rcases hwin with ⟨-, hpin, -⟩ | ⟨-, hw⟩
        · rw [hpast _ List.mem_cons_self a rfl] at hpin
          cases hpin
        · exact ⟨_, List.mem_cons_self, hw⟩
      · exact old hu

/-- In every run: the context manager of a context is a node of one of its processes, which is not
closed or has not got past its release of the context manager; an attempt that succeeds finds none,
and is by the user of every earlier one that succeeded; one that fails leaves the state as it is, but
for the one whose allocation fails when the context is bound to no user; where there was none of
these, a context is bound only to a user that has registered. -/
theorem ctxMgr_exclusive {past : List (MgrState × MgrOp)} (h : (mgrSys L).Run past s) :
    (∀ c n, s.refs.ctxMgr c = some n → ∃ N p, s.refs.node n = some N ∧ N.proc = some p ∧ L.ctxOf p = c ∧
      (s.refs.closed p = true → ∃ (i : Nat) (rest : List Act),
        s.refs.tasks[i]? = some ⟨.worker p, .clearMgr p :: rest⟩)) ∧
    (∀ a res s', s.setCtxMgr L a = some (res, s') →
      (res = .ok () → s.refs.ctxMgr (a.ctx L) = none ∧
        ∀ q ∈ past, ∀ u, Wins L (a.ctx L) u q.1 q.2 → u = a.euid) ∧
      ∀ e, res = .error e → (s' = s ↔ Pins L s a = false)) ∧
    ((∀ q ∈ past, ∀ a, q.2 = .attempt a → Pins L q.1 a = false) →
      ∀ c u, s.uid c = some u → ∃ q ∈ past, Wins L c u q.1 q.2) := by
  obtain ⟨-, hl⟩ := local_of_reach (refs_of_run h)
  refine ⟨hl.mgr, fun a res s' hres => ?_, fun hpast c u hu => wins_of_uid h hpast hu⟩
  rcases setCtxMgr_cases hres with ⟨e, rfl, rfl, hpin⟩ | ⟨rfl, hpin, rfl⟩ | ⟨rfl, hmgr, hu, -, -⟩
  · exact ⟨nofun, fun _ _ => ⟨fun _ => hpin, fun _ => rfl⟩⟩
  · refine ⟨nofun, fun _ _ => ⟨fun heq => ?_, fun hno => ?_⟩⟩
    · have hnone : s.uid (a.ctx L) = none := by
        simp only [Pins, Bool.and_eq_true, Option.isNone_iff_eq_none] at hpin
        exact hpin.1.2
      have hsome := congrFun (congrArg MgrState.uid heq) (a.ctx L)
      rw [hnone] at hsome
      simp at hsome
    · rw [hpin] at hno
      cases hno
  · refine ⟨fun _ => ⟨hmgr, fun q hq u hw => ?_⟩, nofun⟩
    have hbound := uid_of_wins h hq hw
    rcases hu with hu | hu
    · rw [hbound] at hu
      cases hu
    · rw [hbound] at hu
      exact Option.some.inj hu

/-- The step is no attempt that binds the context and fails. -/
def MgrOp.pinsNot (L : Layout) (s : MgrState) : MgrOp → Bool
  | .attempt a => !Pins L s a
  | .other _ => true

/-- The process 1 is refused by the security hook, the process 0 registers as user 1000, and then the
steps `ops`. -/
def register (ops : List MgrOp) : Option MgrState :=
  Sys.execIf (MgrState.exec oneThread) (fun s op => op.pinsNot oneThread s = true) mgrStart
    ([.attempt ⟨1, 0, 0, 2000, false, true⟩, .attempt ⟨0, 0, 0, 1000, true, true⟩,
      .other (.run 0 true), .other (.run 0 true)] ++ ops)

theorem run_register {ops : List MgrOp} (h : register ops = some s) :
    ∃ past, (mgrSys oneThread).Run past s ∧
      ∀ q ∈ past, ∀ a, q.2 = .attempt a → Pins oneThread q.1 a = false := by
  have hreach : (mgrSys oneThread).ReachIf (fun s op => op.pinsNot oneThread s = true) s :=
    Sys.ReachIf.execIf (.init rfl) h
  obtain ⟨past, hrun, hall⟩ := hreach.run
  refine ⟨past, hrun, fun q hq a ha => ?_⟩
  have hq := hall q hq
  rw [ha] at hq
  simpa [MgrOp.pinsNot] using hq

/-- The process 0 is registered, and has been. -/
def registered : MgrState := (register []).get (by decide)
def released : MgrState := (register [.other (.close 0), .other (.run 1 true)]).get (by decide)

/-- While the process 0 is registered its node is the manager, and an attempt of the process 1 changes
nothing. When it is closed, the process 1 can register as the same user, and the context is bound to him. -/
theorem ctxMgr_registered :
    (∃ N p, registered.refs.node 0 = some N ∧ N.proc = some p ∧ oneThread.ctxOf p = 0) ∧
    (∃ s', registered.setCtxMgr oneThread ⟨1, 0, 0, 2000, true, true⟩ = some (.error .busy, s') ∧
      s' = registered) ∧
    ∃ past, (mgrSys oneThread).Run past released ∧
      (∃ s', released.setCtxMgr oneThread ⟨1, 0, 0, 1000, true, true⟩ = some (.ok (), s')) ∧
      (∀ q ∈ past, ∀ u, Wins oneThread 0 u q.1 q.2 → u = 1000) ∧
      ∃ q ∈ past, Wins oneThread 0 1000 q.1 q.2 := by
  obtain ⟨past, hrun, -⟩ := run_register (s := registered) (Option.some_get _).symm
  obtain ⟨past', hrun', hpins⟩ := run_register (s := released) (Option.some_get _).symm
  obtain ⟨hmgr, hattempt, -⟩ := ctxMgr_exclusive hrun
  obtain ⟨-, hattempt', hbound⟩ := ctxMgr_exclusive hrun'
  refine ⟨?_, ?_, past', hrun', ?_⟩
  · obtain ⟨N, p, hN, hp, hc, -⟩ := hmgr 0 0 (by decide)
    exact ⟨N, p, hN, hp, hc⟩
  · obtain ⟨s', hs'⟩ : ∃ s', registered.setCtxMgr oneThread ⟨1, 0, 0, 2000, true, true⟩ =
      some (.error .busy, s') := ⟨_, rfl⟩
    exact ⟨s', hs', ((hattempt _ _ _ hs').2 .busy rfl).mpr (by decide)⟩
  · obtain ⟨s', hs'⟩ : ∃ s', released.setCtxMgr oneThread ⟨1, 0, 0, 1000, true, true⟩ =
      some (.ok (), s') := ⟨_, rfl⟩
    exact ⟨⟨s', hs'⟩, ((hattempt' _ _ _ hs').1 rfl).2, hbound hpins 0 1000 (by decide)⟩

/-- A failed attempt of the user 1000 binds the context, and excludes the user 2000, who could have
registered before: nobody is registered. -/
theorem failedAttempt_excludes :
    (¬ ∀ L s a e s', (mgrSys L).Reach s → s.setCtxMgr L a = some (.error e, s') → s' = s) ∧
    ¬ ∀ L s a e s', (mgrSys L).Reach s → s.setCtxMgr L a = some (.error e, s') →
      ∀ a', a'.ctx L = a.ctx L → s.refs.ctxMgr (a.ctx L) = none →
        s.setCtxMgr L a' ≠ some (.error .perm, s) → s'.setCtxMgr L a' ≠ some (.error .perm, s') := by
  have hfail : mgrStart.setCtxMgr oneThread ⟨0, 0, 0, 1000, true, false⟩ =
    some (.error .noMem, { mgrStart with uid := Function.update mgrStart.uid 0 (some 1000) }) := rfl
  constructor
  · intro h
    have hsame := h _ _ _ _ _ (.init rfl) hfail
    cases congrFun (congrArg MgrState.uid hsame) 0
  · intro h
    refine h _ _ _ _ _ (.init rfl) hfail ⟨1, 0, 0, 2000, true, true⟩ rfl rfl (fun hperm => ?_) rfl
    cases congrArg (Option.map Prod.fst) hperm

end Redroid.Binder.Refs
