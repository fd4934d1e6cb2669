import Redroid.Binder.TxnNetActs
import Redroid.Binder.TxnPhase

/-!
# Transaction stacks in every run

* `Sim.start`: an ioctl or a part of `binder_deferred_release` starts. `Sim.other`: other work comes
  or goes.
* `Sim.reply`: a thread replies; the call that it has served leaves its stack.
* `releaseStack_released`: what the loop of `binder_thread_release` does to the transactions on the
  stack. `Sim.exit`: a thread leaves.
* `sim_of_reach`: the chains are there in every reachable state.
-/

namespace Redroid.Binder.Txn

open CallChain Relation

variable {L : Layout} {s s' s₀ s₁ : TxnState} {G G' : Ghost} {t u r : TxnId} {b : BufId}
  {x y z : ThreadId} {T : Transaction} {B : Buffer} {a a' : Actor} {act act' : Act}
  {rest rest' m acts : List Act} {env : Env} {l : WorkList} {ws : List Work} {op : TxnOp}

/-- The acts of an ioctl that starts. -/
structure Begins (m : List Act) : Prop where
  owns : ∀ act ∈ m, act.owns = []
  sim : ∀ s G act, act ∈ m → ActSim s G act
  idles : ∀ act ∈ m, act.idles = none
  lands : ∀ act ∈ m, act.lands = false
  noPop : ∀ x t, .popTransaction x t ∉ m

/-- What is on its way to a thread after the start of an ioctl. -/
theorem Begins.coming {call : TxnId → Prop} (hnew : Begins m)
    (hfr' : s'.frames = Function.update s.frames a m)
    (hdead : (s'.thread x).isDead = false → (s.thread x).isDead = false)
    (htodo : .transaction u ∈ s'.todo (.thread x) → .transaction u ∈ s.todo (.thread x))
    (h : Coming s' call x u) : Coming s call x u := by
  obtain ⟨hd, hc, h⟩ := h
  refine ⟨hdead hd, hc, ?_⟩
  have hmem {a' : Actor} {act' : Act} (hact' : act' ∈ s'.frames a') (hu : u ∈ act'.owns) :
      act' ∈ s.frames a' := by
    rw [hfr'] at hact'
    rcases eq_or_ne a' a with rfl | hne
    · rw [Function.update_self] at hact'
      rw [hnew.owns act' hact'] at hu
      cases hu
    · rwa [Function.update_of_ne hne] at hact'
  rcases h with h | ⟨act', hact', hb⟩ | ⟨a', z, hact'⟩
  · exact .inl (htodo h)
  · exact .inr (.inl ⟨act', hmem hact' (mem_owns_of_brings hb), hb⟩)
  · exact .inr (.inr ⟨a', z, hmem hact' (mem_owns_of_holds rfl)⟩)

theorem Begins.newActs (hnew : Begins m) : NewActs L s G a m (m ++ []) where
  sim := hnew.sim s G
  unwinds t irt h := by
    have := hnew.owns _ h
    cases this
  pops x t h := absurd h (hnew.noPop x t)
  brought x act t T _ h hb := by
    have := mem_owns_of_brings hb
    rw [hnew.owns act h] at this
    cases this
  lands act h hl := by
    rw [hnew.lands act h] at hl
    cases hl
  after := by
    rw [List.append_nil]
    exact List.pairwise_of_forall_mem_list fun _ _ act' h _ => hnew.owns act' h

/-- An ioctl, or a part of `binder_deferred_release`, starts. -/
theorem Sim.start (h : Sim L s G) (hi : Inv L s) (hs : Sched L s) (hfr : s.frames a = [])
    (hsame : SameNet s s') (hfr' : s'.frames = Function.update s.frames a m) (htodo : s'.todo = s.todo)
    (hthr : s'.thread = s.thread) (hwait : s'.waitingThreads = s.waitingThreads) (hnew : Begins m) :
    Sim L s' G := by
  have hcome {z : ThreadId} {u : TxnId} (hu : Coming s' G.call z u) : Coming s G.call z u :=
    hnew.coming hfr' (fun hd => by rwa [hthr] at hd) (fun hu => by rwa [htodo] at hu) hu
  have howned : s'.owned = s.owned := by
    rw [owned_eq htodo hfr', List.flatMap_eq_nil_iff.mpr hnew.owns]
    exact Function.update_eq_self_iff.mpr (by simp [TxnState.owned, hfr])
  have hfr₁ : s'.frames = Function.update s.frames a (m ++ []) := by rw [hfr', List.append_nil]
  refine ⟨h.ok.mono fun z u hu => hcome hu, h.ends, h.data.same hsame, ?_, ?_⟩
  · refine h.tasks.turn hfr₁ (by simp) (by simp) (by simp) (by simp) (fun a' act' z hact' hz => ?_)
      (fun u => by rw [howned]; exact h.tasks.held) (by rw [howned]; exact h.tasks.placed)
      (fun l u hu => h.tasks.queued (by rwa [htodo] at hu)) hnew.newActs fun a' act' hact' _ => ?_
    · rw [hthr]
      exact hs.alive hi hact' hz
    · refine .net h.tasks hi hs hact' (fun y => by rw [hthr]) (fun _ _ => .rfl) (fun _ _ => .rfl)
        (fun u hu T hT => ?_) (fun _ _ => rfl) (fun z th' _ _ hr => hr.mono rfl (fun u hu => hcome hu)
          fun y hd => ⟨by rwa [hthr] at hd, id⟩) (fun _ _ _ _ _ _ => id) fun u hu => h.owned_some hact' hu
      rcases hsame.txn u with he | ⟨T₀, hT₀, he⟩
      · exact ⟨T, by rw [he, hT], ⟨rfl, rfl, rfl, rfl, rfl, rfl, .inl rfl⟩⟩
      · rw [hT] at hT₀
        cases hT₀
        exact ⟨_, he, ⟨rfl, rfl, rfl, rfl, rfl, rfl, .inr rfl⟩⟩
  · exact h.idle.calm hfr₁ (by simp) (fun _ => by rw [htodo]) (fun _ => by rw [hthr])
      (fun _ _ hz => by rwa [hwait] at hz) (fun _ hd => by rwa [hthr] at hd) (fun _ _ => id)
      (fun _ _ _ hz hcu _ => ⟨hcu, hz⟩) hnew.idles

/-- Work comes or goes that is no transaction, or a process dies. -/
theorem Sim.other (h : Sim L s G) (hi : Inv L s) (hs : Sched L s) (hsame : SameNet s s')
    (hfr : s'.frames = s.frames)
    (htodo : ∀ l, (s'.todo l).filterMap Work.txn? = (s.todo l).filterMap Work.txn?)
    (hidle : Idle s' G) : Sim L s' G := by
  have hmem : ∀ l u, .transaction u ∈ s'.todo l → .transaction u ∈ s.todo l := fun l u hu =>
    (mem_todo_of_same htodo u l).mp hu
  have hcome {z : ThreadId} {u : TxnId} (hu : Coming s' G.call z u) : Coming s G.call z u := by
    obtain ⟨hd, hc, hu⟩ := hu
    rw [hfr] at hu
    exact ⟨by rwa [hsame.dead] at hd, hc, hu.imp_left (hmem _ _)⟩
  have howned : s'.owned = s.owned := by
    funext p
    rcases p with l | a'
    · exact htodo l
    · simp [TxnState.owned, hfr]
  have hkept {a' : Actor} {act' : Act} (hact' : act' ∈ s.frames a') : Stays s s' G G act' := by
    refine .net h.tasks hi hs hact' hsame.dead (fun _ _ => .rfl) (fun _ _ => .rfl)
      (fun u hu T hT => ?_) (fun _ _ => rfl) (fun z th' _ _ hr => hr.mono rfl (fun u hu => hcome hu)
        fun y hd => ⟨by rwa [hsame.dead] at hd, id⟩) (fun _ _ _ _ _ _ => id) fun u hu => h.owned_some hact' hu
    rcases hsame.txn u with he | ⟨T₀, hT₀, he⟩
    · exact ⟨T, by rw [he, hT], ⟨rfl, rfl, rfl, rfl, rfl, rfl, .inl rfl⟩⟩
    · rw [hT] at hT₀
      cases hT₀
      exact ⟨_, he, ⟨rfl, rfl, rfl, rfl, rfl, rfl, .inr rfl⟩⟩
  refine ⟨h.ok.mono fun z u hu => hcome hu, h.ends, h.data.same hsame, ?_, hidle⟩
  constructor
  · rw [howned]
    exact h.tasks.held
  · rw [howned]
    exact h.tasks.placed
  · exact fun hu => h.tasks.queued (hmem _ _ hu)
  · rw [hfr]
    exact fun hact => (hkept hact).sim
  · rw [hfr]
    exact h.tasks.unwinds
  · rw [hfr]
    exact h.tasks.pops
  · intro x act t T' hact hb hT'
    rw [hfr] at hact
    obtain ⟨T, hT, he⟩ := (hkept hact).toProc t (mem_owns_of_brings hb) T' hT'
    rw [he]
    exact h.tasks.brought hact hb hT
  · rw [hfr]
    exact h.tasks.lands
  · rw [hfr]
    exact h.tasks.after

/-- A thread that serves a call does not wait: nothing is on its way to it. -/
theorem Sim.serving_not_coming {l : List (Entry TxnId)} (h : Sim L s G)
    (hx : G.net.stack x = .serve t :: l) : ¬ Coming s G.call x u := by
  intro hu
  rcases h.ok.due hu with ⟨hs, -⟩ | ⟨v, r, hs, -⟩ <;> rw [hx] at hs <;> cases hs

/-- A thread replies: the call that it has served leaves its stack. -/
theorem Sim.reply {oneWay : Bool} (h : Sim L s G) (hi : Inv L s) (hs : Sched L s)
    (hfr : s.frames (.thread x) = []) (hd : (s.thread x).isDead = false)
    (hst : (s.thread x).transactionStack = some t) (hT : s.txn t = some T) (hto : T.toThread = some x) :
    Sim L ((s.setStack x T.toParent).setFrames (.thread x) [.replyTarget x t oneWay])
      (G.withNet (G.net.reply x t)) := by
  obtain ⟨s', hs'⟩ : ∃ s', s' = (s.setStack x T.toParent).setFrames (.thread x)
    [.replyTarget x t oneWay] := ⟨_, rfl⟩
  obtain ⟨r, hr⟩ := h.top_serve hd hst hT hto
  have hserved : G.net.status t = .served x := h.ok.serve_iff.mp (by rw [hr]; simp)
  obtain ⟨hc, hsta⟩ := h.data.stacked (t := t) (by simp [hserved]) (by simp [hserved])
  have hfr' : s'.frames = Function.update s.frames (.thread x) ([.replyTarget x t oneWay] ++ []) := by
    rw [hs']
    rfl
  have htodo : s'.todo = s.todo := by rw [hs']; rfl
  have hthr (z : ThreadId) : (s'.thread z).isDead = (s.thread z).isDead ∧
      (s'.thread z).processTodo = (s.thread z).processTodo := by
    rw [hs']
    rcases eq_or_ne z x with rfl | hne
    · simp
    · simp [hne]
  have hstack {z : ThreadId} (hz : z ≠ x) : (G.net.reply x t).stack z = G.net.stack z :=
    Function.update_of_ne hz ..
  have hcome {z : ThreadId} {u : TxnId} (hu : Coming s' G.call z u) : Coming s G.call z u := by
    obtain ⟨hd, hc, hu⟩ := hu
    have hmem {a' : Actor} {act' : Act} (hact' : act' ∈ s'.frames a')
        (hne : act' ≠ .replyTarget x t oneWay) : act' ∈ s.frames a' := by
      rw [hfr'] at hact'
      rcases eq_or_ne a' (.thread x) with rfl | ha
      · rw [Function.update_self] at hact'
        exact absurd (List.mem_singleton.mp hact') hne
      · rwa [Function.update_of_ne ha] at hact'
    refine ⟨by rwa [(hthr z).1] at hd, hc, ?_⟩
    rcases hu with hu | ⟨act', hact', hb⟩ | ⟨a', w, hact'⟩
    · exact .inl (by rwa [htodo] at hu)
    · refine .inr (.inl ⟨act', hmem hact' ?_, hb⟩)
      rintro rfl
      cases hb
    · exact .inr (.inr ⟨a', w, hmem hact' (by simp)⟩)
  have hnone : ¬ OnList s.owned t := fun ho => by
    rw [h.tasks.held.mpr ho] at hserved
    cases hserved
  obtain ⟨hplaced, hon⟩ := owned_take h.tasks htodo hfr' hnone (.inl (by simp [TxnState.owned, hfr, Act.owns,
    Act.holds, Act.refs]))
  rw [← hs']
  refine ⟨(h.ok.reply hr).mono fun z u hu => hcome hu, h.ends, ?_, ?_, ?_⟩
  · rw [hs']
    exact (h.data.reply h.ok hr hT).same (.of_eq rfl rfl (fun _ => rfl) fun _ => rfl)
  · refine h.tasks.turn hfr' (by simp) (by simp) (by simp) (by simp) (fun a' act' z hact' hz => ?_)
      (fun u => ?_) hplaced (fun l u hu => h.tasks.queued (by rwa [htodo] at hu)) ?_
      fun a' act' hact' hne => ?_
    · rw [(hthr z).1]
      exact hs.alive hi hact' hz
    · rw [hon, ← h.tasks.held, Ghost.withNet_net, Net.reply_status]
      rcases eq_or_ne u t with rfl | hne
      · simp
      · simp [hne]
    · refine ⟨?_, by simp, by simp, ?_, by simp [Act.lands], by simp⟩
      · intro act' h'
        rw [List.mem_singleton.mp h']
        exact ⟨hc, hsta⟩
      · intro z act' u T' _ h' hb
        rw [List.mem_singleton.mp h'] at hb
        cases hb
    · refine .net h.tasks hi hs hact' (fun y => (hthr y).1) (fun _ _ => .rfl) (fun _ _ => .rfl)
        (fun u _ U hU => ⟨U, by rw [hs']; exact hU, ⟨rfl, rfl, rfl, rfl, rfl, rfl, .inl rfl⟩⟩)
        (fun _ _ => rfl) (fun z th' hfz _ hrd => ?_) (fun z u y he hcu hy hny => ?_)
        fun u hu => h.owned_some hact' hu
      · have hzx : z ≠ x := by
          rintro rfl
          rw [hfr] at hfz
          cases hfz
        refine hrd.mono (hstack hzx) (fun u hu => hcome hu) fun y hy =>
          ⟨by rwa [(hthr y).1] at hy, fun hw => hw.mono (hstack ?_) (hstack hzx) fun _ _ _ _ => id⟩
        rintro rfl
        obtain ⟨u, r', -, -, hu, -⟩ := hw
        rw [hr] at hu
        cases hu
      · have hyx : y ≠ x := by
          rintro rfl
          exact h.serving_not_coming hr ⟨hy, hcu, .inr (.inr ⟨a', z, he ▸ hact'⟩)⟩
        rwa [Ghost.withNet_net, hstack hyx]
  · refine h.idle.calm hfr' (by simp) (fun _ => by rw [htodo]) (fun z => (hthr z).2)
      (fun p z hz => by rw [hs'] at hz; exact hz) (fun z hz => by rwa [(hthr z).1] at hz)
      (fun z hidle hz => ?_) (fun z u hz hnil hcu hu => ⟨hcu, ?_⟩) (by simp [Act.idles])
    · obtain ⟨act', hact', -⟩ := hidle
      have hzx : z ≠ x := by
        rintro rfl
        rw [hfr] at hact'
        cases hact'
      rwa [Ghost.withNet_net, hstack hzx]
    · have hzx : z ≠ x := by
        rintro rfl
        exact h.serving_not_coming hr ⟨by rwa [(hthr z).1] at hz, hcu, .inl hu⟩
      rwa [Ghost.withNet_net, hstack hzx] at hnil

/-! ## A thread leaves -/

/-- What `binder_thread_release` has done to the transactions `es` on a stack. -/
structure Unwound (x : ThreadId) (s s₁ : TxnState) (es : List (Entry TxnId)) : Prop where
  txn : ∀ u, s₁.txn u = (s.txn u).map (Released es u)
  buf : ∀ {b B'}, s₁.buf b = some B' →
    ∃ B, s.buf b = some B ∧ B'.proc = B.proc ∧ B'.targetNode = B.targetNode
  frames : s₁.frames = s.frames
  todo : s₁.todo = s.todo
  waiting : s₁.waitingThreads = s.waitingThreads
  thread : s₁.thread = Function.update s.thread x { s.thread x with isDead := true }

theorem Released.append {es : List (Entry TxnId)} {e : Entry TxnId} (hu : e.id ≠ u) :
    Released (es ++ [e]) u T = Released es u T := by
  have hs : .serve u ∈ es ++ [e] ↔ .serve u ∈ es := by
    rw [List.mem_append, List.mem_singleton, or_iff_left]
    rintro rfl
    exact hu rfl
  have hc : .call u ∈ es ++ [e] ↔ .call u ∈ es := by
    rw [List.mem_append, List.mem_singleton, or_iff_left]
    rintro rfl
    exact hu rfl
  simp only [Released, hs, hc]

theorem Unwound.step {es : List (Entry TxnId)} {e : Entry TxnId} {s₂ : TxnState} {o : Option TxnId}
    (h : Unwound x s s₁ es) (ht : StackTurn x s₁ e.id s₂ o) (hT : s.txn e.id = some T)
    (htxn : s₂.txn = Function.update s₁.txn e.id (some (Released (es ++ [e]) e.id T))) :
    Unwound x s s₂ (es ++ [e]) := by
  obtain ⟨f₁, f₂, -, -, -, f₆, f₇⟩ := ht.same
  refine ⟨fun u => ?_, fun {b B'} hB' => ?_, f₁.trans h.frames, f₂.trans h.todo, f₆.trans h.waiting,
    f₇.trans h.thread⟩
  · rw [htxn]
    rcases eq_or_ne u e.id with rfl | hne
    · rw [Function.update_self, hT]
      rfl
    · rw [Function.update_of_ne hne, h.txn]
      exact congrArg (Option.map · _) (funext fun T => (Released.append hne.symm).symm)
  · cases ht with
    | served T' b' B₀ hT' hx hb hB₀ =>
      simp only [TxnState.setTxn_buf, TxnState.setBuf_buf] at hB'
      rcases eq_or_ne b b' with rfl | hne
      · rw [Function.update_self, Option.some.injEq] at hB'
        obtain ⟨B, hB, h₁, h₂⟩ := h.buf hB₀
        exact ⟨B, hB, by rw [← hB', ← h₁], by rw [← hB', ← h₂]⟩
      · rw [Function.update_of_ne hne] at hB'
        exact h.buf hB'
    | unlinked T' hT' hx hb => exact h.buf hB'
    | sent T' hT' hx hf => exact h.buf hB'

/-- A transaction that the thread has sent has not come to it. -/
theorem Sim.sent_ne (h : Sim L s G) (hc : G.net.caller t = some x) (hT : s.txn t = some T) :
    T.fromThread = some x ∧ T.toThread ≠ some x := by
  have hst : ¬ G.stale t := fun hst => by
    rw [(h.data.stale hst).1] at hc
    cases hc
  have hf := (h.data.fresh hT hst).1.symm.trans hc
  exact ⟨hf, fun hto => h.data.apart hT hf (h.data.toThread hT hto)⟩

/-- The loop of `binder_thread_release` finds the next entry of the stack, and what is below it. -/
theorem Sim.entry {l₁ l₂ : List (Entry TxnId)} {e : Entry TxnId} (h : Sim L s G)
    (hl : G.net.stack x = l₁ ++ e :: l₂) (hu : Unwound x s s₁ l₁) :
    ∃ T, s.txn e.id = some T ∧ s₁.txn e.id = some T ∧
      (e = .serve e.id ∧ T.toThread = some x ∧ T.toParent = l₂.head?.map Entry.id ∨
        e = .call e.id ∧ T.toThread ≠ some x ∧ T.fromThread = some x ∧
          T.fromParent = l₂.head?.map Entry.id) := by
  have hnd := h.ok.nodup x
  rw [hl] at hnd
  have hel : e ∉ l₁ := fun hm => List.disjoint_of_nodup_append hnd hm List.mem_cons_self
  have hmem : e ∈ G.net.stack x := by rw [hl]; simp
  cases e with
  | serve t =>
    have hserved := h.ok.serve_iff.mp hmem
    obtain ⟨T, hT⟩ := h.data.txn (t := t) (by simp [hserved])
    have hto := h.data.server hserved hT
    have hcl : .call t ∉ l₁ := fun hm =>
      (h.sent_ne (h.ok.call_iff.mp (by rw [hl]; simp [hm])) hT).2 hto
    refine ⟨T, hT, ?_, .inl ⟨rfl, hto, h.data.below hl hT⟩⟩
    rw [Entry.id, hu.txn, hT]
    exact congrArg some (Released.of_not hel hcl)
  | call t =>
    have hcaller := h.ok.call_iff.mp hmem
    have hst : ¬ G.stale t := fun hst => by
      rw [(h.data.stale hst).1] at hcaller
      cases hcaller
    obtain ⟨T, hT⟩ := h.data.txn (t := t) fun ha => by
      rw [(h.ok.absent ha).1] at hcaller
      cases hcaller
    obtain ⟨hf, hto⟩ := h.sent_ne hcaller hT
    have hsl : .serve t ∉ l₁ := fun hm =>
      hto (h.data.server (h.ok.serve_iff.mp (by rw [hl]; simp [hm])) hT)
    refine ⟨T, hT, ?_, .inr ⟨rfl, hto, hf, ?_⟩⟩
    · rw [Entry.id, hu.txn, hT]
      exact congrArg some (Released.of_not hsl hel)
    · rw [← (h.data.fresh hT hst).2]
      exact h.ok.callParent hl

/-- One turn of the loop takes one entry off. -/
theorem Sim.stackTurn {s₂ : TxnState} {l₁ l₂ : List (Entry TxnId)} {e : Entry TxnId} {o : Option TxnId}
    (h : Sim L s G) (hl : G.net.stack x = l₁ ++ e :: l₂) (hu : Unwound x s s₁ l₁)
    (hturn : StackTurn x s₁ e.id s₂ o) : o = l₂.head?.map Entry.id ∧ Unwound x s s₂ (l₁ ++ [e]) := by
  obtain ⟨T, hT, hT₁, he⟩ := h.entry hl hu
  have hstep := hu.step hturn hT
  have hserve (he : e = .serve e.id) : Released (l₁ ++ [e]) e.id T =
      { T with toProc := none, toThread := none, buffer := none } := by
    rw [Released, if_pos (by rw [← he]; simp)]
  have hcall (he : e = .call e.id) (hto : T.toThread ≠ some x) :
      Released (l₁ ++ [e]) e.id T = { T with fromThread := none } := by
    have hns : .serve e.id ∉ l₁ ++ [e] := by
      intro hm
      rcases List.mem_append.mp hm with hm | hm
      · exact hto (h.data.server (h.ok.serve_iff.mp (by rw [hl]; simp [hm])) hT)
      · rw [he] at hm
        cases List.mem_singleton.mp hm
    rw [Released, if_neg hns, if_pos (by rw [← he]; simp)]
  cases hturn with
  | served T' b B hT' hx hb hB =>
    rw [hT₁] at hT'
    cases hT'
    rcases he with ⟨he, hto, hp⟩ | ⟨he, hto, -⟩
    · exact ⟨hp, hstep (by rw [hserve he]; rfl)⟩
    · exact absurd hx hto
  | unlinked T' hT' hx hb =>
    rw [hT₁] at hT'
    cases hT'
    rcases he with ⟨he, hto, hp⟩ | ⟨he, hto, -⟩
    · exact ⟨hp, hstep (by rw [hserve he]; rfl)⟩
    · exact absurd hx hto
  | sent T' hT' hx hf =>
    rw [hT₁] at hT'
    cases hT'
    rcases he with ⟨he, hto, -⟩ | ⟨he, hto, -, hp⟩
    · exact absurd hto hx
    · exact ⟨hp, hstep (by rw [hcall he hto]; rfl)⟩

/-- The loop of `binder_thread_release` takes the stack of the thread off entry by entry. -/
theorem Sim.releaseStack {fuel : Nat} (h : Sim L s G) (h₀ : Unwound x s s₀ [])
    (he : TxnState.releaseStack x fuel s₀ ((G.net.stack x).head?.map Entry.id) = some s₁) :
    Unwound x s s₁ (G.net.stack x) := by
  have hmain := releaseStack_rule (I := fun s₂ o => ∃ l₁ l₂, G.net.stack x = l₁ ++ l₂ ∧
    o = l₂.head?.map Entry.id ∧ Unwound x s s₂ l₁) ?_ ⟨[], _, rfl, rfl, h₀⟩ he
  · obtain ⟨l₁, l₂, hl, ho, hu⟩ := hmain
    cases l₂ with
    | nil => rwa [hl, List.append_nil]
    | cons e l₂ => cases ho
  · rintro s₂ t s₃ o ⟨l₁, l₂, hl, ho, hu⟩ hturn
    cases l₂ with
    | nil => cases ho
    | cons e l₂ =>
      obtain rfl : t = e.id := Option.some.inj ho
      obtain ⟨ho', hu'⟩ := h.stackTurn hl hu hturn
      exact ⟨l₁ ++ [e], l₂, by rw [hl, List.append_assoc]; rfl, ho', hu'⟩

/-- The call that the thread serves at the top of its stack; `binder_thread_release` lets it fail. -/
def topServed (g : Net ThreadId TxnId) (x : ThreadId) : Option TxnId :=
  match g.stack x with
  | .serve t :: _ => some t
  | _ => none

theorem topServed_iff {g : Net ThreadId TxnId} :
    topServed g x = some t ↔ (g.stack x).head? = some (.serve t) := by
  rw [topServed]
  split
  · rename_i u l hl
    simp [hl]
  · rename_i hno
    refine ⟨by simp, fun hh => ?_⟩
    obtain ⟨l, hl⟩ := List.head?_eq_some_iff.mp hh
    exact absurd hl (hno t l)

theorem Sim.topServed_eq (h : Sim L s G) (hd : (s.thread x).isDead = false) :
    ((s.thread x).transactionStack.filter fun t => (s.txn t).any fun T => T.toThread = some x) =
      topServed G.net x := by
  rw [h.data.top hd, topServed]
  split
  · rename_i t l hl
    have hserved := h.ok.serve_iff.mp (show .serve t ∈ G.net.stack x by rw [hl]; simp)
    obtain ⟨T, hT⟩ := h.data.txn (t := t) (by simp [hserved])
    simp [hl, Entry.id, hT, h.data.server hserved hT]
  · rename_i hno
    cases hs : G.net.stack x with
    | nil => rfl
    | cons e l =>
      cases e with
      | serve t => exact absurd hs (hno t l)
      | call t =>
        have hc := h.ok.call_iff.mp (show .call t ∈ G.net.stack x by rw [hs]; simp)
        simp only [List.head?_cons, Option.map_some, Option.filter_eq_none_iff, Option.some.injEq]
        rintro _ rfl
        cases hT : s.txn t with
        | none => simp [Entry.id, hT]
        | some T => simp [Entry.id, hT, (h.sent_ne hc hT).2]

/-- What `binder_thread_release` does up to the first `binder_send_failed_reply`. -/
theorem Sim.threadRelease_eq {fuel : Nat} (h : Sim L s G) (he : s.threadRelease a x fuel = some s') :
    (s.thread x).isDead = false ∧ ∃ s₁, Unwound x s s₁ (G.net.stack x) ∧
      s' = s₁.setFrames a ((topServed G.net x).toList.map .sendFailedReply ++ [.releaseWork (.thread x)]) := by
  simp only [TxnState.threadRelease, bind, Option.bind_eq_some_iff, Option.guard_eq_some',
    exists_const, Option.some.injEq] at he
  obtain ⟨hd, s₁, hs₁, rfl⟩ := he
  have hd : (s.thread x).isDead = false := by simpa using hd
  refine ⟨hd, s₁, h.releaseStack ?_ (by rw [← h.data.top hd]; exact hs₁), by rw [h.topServed_eq hd]⟩
  refine ⟨fun u => ?_, fun {b B} hB => ⟨B, hB, rfl, rfl⟩, rfl, rfl, rfl, rfl⟩
  cases hT : s.txn u <;> simp [hT, Released]

/-- A thread leaves. -/
theorem Sim.exit {fuel : Nat} (h : Sim L s G) (hi : Inv L s) (hs : Sched L s) (hfr : s.frames a = [])
    (hfrx : s.frames (.thread x) = []) (he : s.threadRelease a x fuel = some s') :
    Sim L s' (G.withNet (G.net.exit x)) := by
  obtain ⟨hd, s₁, hun, hs'⟩ := h.threadRelease_eq he
  obtain ⟨m, hnew⟩ : ∃ m, m = (topServed G.net x).toList.map Act.sendFailedReply ++
    [.releaseWork (.thread x)] := ⟨_, rfl⟩
  rw [← hnew] at hs'
  have hfr' : s'.frames = Function.update s.frames a (m ++ []) := by
    rw [hs', TxnState.setFrames_frames, hun.frames, List.append_nil]
  have htodo : s'.todo = s.todo := by rw [hs']; exact hun.todo
  have hwait : s'.waitingThreads = s.waitingThreads := by rw [hs']; exact hun.waiting
  have hthr (z : ThreadId) : (s'.thread z).transactionStack = (s.thread z).transactionStack ∧
      (s'.thread z).processTodo = (s.thread z).processTodo ∧
        (s'.thread z).isDead = if z = x then true else (s.thread z).isDead := by
    rw [hs', TxnState.setFrames_thread, hun.thread]
    rcases eq_or_ne z x with rfl | hne
    · simp
    · simp [hne]
  have halive {z : ThreadId} (hz : (s'.thread z).isDead = false) : z ≠ x ∧ (s.thread z).isDead = false := by
    rw [(hthr z).2.2] at hz
    split at hz
    · cases hz
    · exact ⟨‹_›, hz⟩
  have hstack {z : ThreadId} (hz : z ≠ x) : (G.net.exit x).stack z = G.net.stack z :=
    Function.update_of_ne hz ..
  have hkind : ∀ act ∈ m, act = .releaseWork (.thread x) ∨
      ∃ t, act = .sendFailedReply t ∧ topServed G.net x = some t := by
    intro act hact
    rw [hnew, List.mem_append, List.mem_map, List.mem_singleton] at hact
    rcases hact with ⟨t, ht, rfl⟩ | rfl
    · exact .inr ⟨t, rfl, by simpa using ht⟩
    · exact .inl rfl
  have hcome {z : ThreadId} {u : TxnId} (hu : Coming s' G.call z u) : Coming s G.call z u ∧ z ≠ x := by
    obtain ⟨hz, hc, hu⟩ := hu
    have hmem {a' : Actor} {act' : Act} (hact' : act' ∈ s'.frames a')
        (hne : act'.brings ≠ none ∨ ∃ w y, act' = .procTransaction w u (some y)) :
        act' ∈ s.frames a' := by
      rw [hfr'] at hact'
      rcases eq_or_ne a' a with rfl | ha
      · rw [Function.update_self, List.append_nil] at hact'
        rcases hkind act' hact' with rfl | ⟨t, rfl, -⟩
        · rcases hne with hne | ⟨w, y, hne⟩
          · exact absurd rfl hne
          · cases hne
        · rcases hne with hne | ⟨w, y, hne⟩
          · exact absurd rfl hne
          · cases hne
      · rwa [Function.update_of_ne ha] at hact'
    refine ⟨⟨(halive hz).2, hc, ?_⟩, (halive hz).1⟩
    rcases hu with hu | ⟨act', hact', hb⟩ | ⟨a', w, hact'⟩
    · exact .inl (by rwa [htodo] at hu)
    · exact .inr (.inl ⟨act', hmem hact' (.inl (by simp [hb])), hb⟩)
    · exact .inr (.inr ⟨a', w, hmem hact' (.inr ⟨w, z, rfl⟩)⟩)
  have hserved {u : TxnId} (hu : topServed G.net x = some u) : G.net.status u = .served x := by
    rw [topServed_iff] at hu
    exact h.ok.serve_iff.mp (List.mem_of_head? hu)
  have hown : Placed s'.owned ∧ ∀ u, OnList s'.owned u ↔
      OnList s.owned u ∨ topServed G.net x = some u := by
    cases ht : topServed G.net x with
    | none =>
      have he : s'.owned = s.owned := by
        rw [owned_eq htodo hfr', hnew, ht]
        exact Function.update_eq_self_iff.mpr (by simp [TxnState.owned, hfr, Act.owns, Act.holds, Act.refs])
      rw [he]
      exact ⟨h.tasks.placed, fun u => by simp⟩
    | some t =>
      have hnone : ¬ OnList s.owned t := fun ho => by
        have := hserved ht
        rw [h.tasks.held.mpr ho] at this
        cases this
      obtain ⟨hp, hon⟩ := owned_take h.tasks htodo hfr' hnone (.inl (by
        rw [hnew, ht]
        simp [TxnState.owned, hfr, Act.owns, Act.holds, Act.refs]))
      exact ⟨hp, fun u => (hon u).trans (by rw [Option.some.injEq, eq_comm])⟩
  have hnotServed {a' : Actor} {act' : Act} (hact' : act' ∈ s.frames a') {u : TxnId} (hu : u ∈ act'.owns) :
      .serve u ∉ G.net.stack x := fun hm => by
    have := h.ok.serve_iff.mp hm
    rw [h.tasks.status hact' hu] at this
    cases this
  refine ⟨h.ok.exit x fun z u hu => hcome hu, h.ends, ?_, ?_, ?_⟩
  · refine h.data.exit h.ok (by rw [hs']; exact hun.txn) (fun hb => hun.buf (by rwa [hs'] at hb))
      (fun z => (hthr z).1) fun z => (hthr z).2.2
  · refine h.tasks.turn hfr' (by simp) (by simp) (by simp) (by simp) (fun a' act' z hact' hz => ?_)
      (fun u => ?_) hown.1 (fun l u hu => h.tasks.queued (by rwa [htodo] at hu)) ?_
      fun a' act' hact' hne => ?_
    · have hzx : z ≠ x := by
        rintro rfl
        have := hi.self hact' hz
        subst this
        rw [hfrx] at hact'
        cases hact'
      rw [(hthr z).2.2, if_neg hzx]
      exact hs.alive hi hact' hz
    · rw [hown.2, ← h.tasks.held, Ghost.withNet_net, Net.exit_status, topServed_iff]
      by_cases hu : G.net.status u = .served x
      · rw [if_pos hu]
        by_cases hh : (G.net.stack x).head? = some (.serve u)
        · simp [hh]
        · simp [hh, hu]
      · rw [if_neg hu]
        refine (or_iff_left fun hh => hu ?_).symm
        exact h.ok.serve_iff.mp (List.mem_of_head? hh)
    · refine ⟨fun act' h' => ?_, fun u irt h' => ?_, fun z u h' => ?_, fun z act' u T' _ h' hb => ?_,
        fun act' h' hl => ?_, ?_⟩
      · rcases hkind act' h' with rfl | ⟨t, rfl, ht⟩
        · trivial
        · have := hserved ht
          exact h.data.stacked (by rw [this]; simp) (by rw [this]; simp)
      · rcases hkind _ h' with h' | ⟨t, h', -⟩ <;> cases h'
      · rcases hkind _ h' with h' | ⟨t, h', -⟩ <;> cases h'
      · rcases hkind _ h' with rfl | ⟨t, rfl, -⟩ <;> cases hb
      · rcases hkind _ h' with rfl | ⟨t, rfl, -⟩ <;> cases hl
      · rw [List.append_nil]
        refine List.pairwise_of_forall_mem_list fun act₁ h₁ act₂ _ hr => ?_
        rcases hkind _ h₁ with rfl | ⟨t, rfl, -⟩ <;> cases hr
    · refine .of h.tasks hi hact' (fun y hy => (halive hy).2) (fun y hy => ?_) (fun _ _ => .rfl)
        (fun _ _ => .rfl) (fun u hu => ?_) (fun u hu y hy hc => ?_) (fun z th' hfz _ hrd => ?_)
        (fun z u y _ _ hy hny => ?_)
      · have hyx : y ≠ x := by
          rintro rfl
          have := hi.self hact' hy
          subst this
          rw [hfrx] at hact'
          cases hact'
        rw [(hthr y).2.2, if_neg hyx]
        exact hs.alive hi hact' hy
      · obtain ⟨T, hT⟩ := h.owned_some hact' hu
        have hns := hnotServed hact' hu
        refine ⟨T, Released (G.net.stack x) u T, hT, ?_, ?_, ?_, fun hc => ?_⟩
        · rw [hs', TxnState.setFrames_txn, hun.txn, hT]
          rfl
        · rw [Released, if_neg hns]
          split <;> rfl
        · rw [Released, if_neg hns]
          split <;> rfl
        · rw [Released.of_not hns]
          · exact ⟨rfl, rfl⟩
          · intro hm
            have hcaller := h.ok.call_iff.mp hm
            have hst : ¬ G.stale u := fun hst => by
              rw [(h.data.stale hst).1] at hcaller
              cases hcaller
            refine hc ⟨?_, hst⟩
            by_contra hn
            have := (h.data.fresh hT hst).1
            rw [hcaller, (h.data.plain hT hn).1] at this
            cases this
      · rw [Ghost.withNet_net, Net.exit_caller, if_neg, hc]
        rw [hc]
        exact fun hyx => (halive hy).1 (Option.some.inj hyx)
      · have hzx : z ≠ x := by
          rintro rfl
          rw [hfrx] at hfz
          cases hfz
        exact hrd.mono (hstack hzx) (fun u hu => (hcome hu).1) fun y hy => ⟨(halive hy).2, fun hw =>
          hw.mono (hstack (halive hy).1) (hstack hzx) fun _ _ _ _ => id⟩
      · rwa [Ghost.withNet_net, hstack (halive hy).1]
  · refine h.idle.calm hfr' (by simp) (fun _ => by rw [htodo]) (fun z => (hthr z).2.1)
      (fun p z hz => by rwa [hwait] at hz) (fun z hz => (halive hz).2) (fun z hidle hz => ?_)
      (fun z u hz hnil hcu hu => ⟨hcu, ?_⟩) (fun act' h' => ?_)
    · obtain ⟨act', hact', -⟩ := hidle
      have hzx : z ≠ x := by
        rintro rfl
        rw [hfrx] at hact'
        cases hact'
      rwa [Ghost.withNet_net, hstack hzx]
    · rwa [Ghost.withNet_net, hstack (halive hz).1] at hnil
    · rcases hkind _ h' with rfl | ⟨t, rfl, -⟩ <;> rfl

/-! ## All steps -/

theorem Begins.one (howns : act.owns = []) (hsim : ∀ s G, ActSim s G act) (hid : act.idles = none)
    (hl : act.lands = false) (hpop : ∀ x t, act ≠ .popTransaction x t) : Begins [act] :=
  ⟨by simpa using howns, fun s G act' h' => by rw [List.mem_singleton.mp h']; exact hsim s G,
    by simpa using hid, by simpa using hl, fun x t h' => hpop x t (List.mem_singleton.mp h').symm⟩

/-- Threads that wait, when work comes or goes on a list of no thread, or a process dies. -/
theorem Idle.other (h : Idle s G) (hfr : s'.frames = s.frames)
    (htodo : ∀ x, s'.todo (.thread x) = s.todo (.thread x)) (hthr : s'.thread = s.thread)
    (hwait : s'.waitingThreads = s.waitingThreads) : Idle s' G where
  idle hact hid := h.idle (by rwa [hfr] at hact) hid
  first hd hx hc hu := by
    rw [hthr] at hd
    rw [htodo] at hu ⊢
    exact h.first hd hx hc hu
  quiet hact hp := by
    rw [hfr] at hact
    rw [hthr] at hp
    rw [htodo]
    exact h.quiet hact hp
  waiting hx := by
    rw [hwait] at hx
    rw [hthr]
    exact h.waiting hx

/-- A thread that is not in `binder_thread_read` queues work for itself. -/
theorem Idle.addThreadWork (type : WorkType) (deferred : Bool) (h : Idle s G) (hs : Sched L s)
    (hw : s.writes x = true) : Idle (if deferred then s.enqueue (.thread x) (.other type)
      else s.enqueueThread x (.other type)) G := by
  simp only [TxnState.writes, Bool.and_eq_true, List.all_eq_true] at hw
  obtain ⟨s', hs'⟩ : ∃ s', s' = if deferred then s.enqueue (.thread x) (.other type)
    else s.enqueueThread x (.other type) := ⟨_, rfl⟩
  have hfr : s'.frames = s.frames := by rw [hs']; split <;> rfl
  have hwait : s'.waitingThreads = s.waitingThreads := by rw [hs']; split <;> rfl
  have htodo : s'.todo = Function.update s.todo (.thread x) (s.todo (.thread x) ++ [.other type]) := by
    rw [hs']
    split <;> rfl
  have hthr {z : ThreadId} (hz : z ≠ x) : s'.thread z = s.thread z := by
    rw [hs']
    split
    · rfl
    · simp [hz]
  have hdead (z : ThreadId) : (s'.thread z).isDead = (s.thread z).isDead := by
    rw [hs']
    split
    · rfl
    · exact (SameTasks.enqueueThread x _).threadDead z
  have hsleeps : .wait x true ∉ s.frames (.thread x) ∧ .sleep x true ∉ s.frames (.thread x) :=
    ⟨fun hm => Bool.noConfusion (hw.1 _ hm), fun hm => Bool.noConfusion (hw.1 _ hm)⟩
  rw [← hs']
  constructor
  · intro z act hact hid
    exact h.idle (by rwa [hfr] at hact) hid
  · intro z t hd hnil hc ht
    rw [hdead] at hd
    rw [htodo] at ht ⊢
    rcases eq_or_ne z x with rfl | hne
    · rw [Function.update_self] at ht ⊢
      rw [List.mem_append, List.mem_singleton, or_iff_left (by simp)] at ht
      rw [List.head?_append, h.first hd hnil hc ht]
      rfl
    · rw [Function.update_of_ne (by simpa using hne)] at ht ⊢
      exact h.first hd hnil hc ht
  · intro z hact hp
    rw [hfr] at hact
    have hne : z ≠ x := by
      rintro rfl
      exact hact.elim hsleeps.1 hsleeps.2
    rw [hthr hne] at hp
    rw [htodo, Function.update_of_ne (by simpa using hne)]
    exact h.quiet hact hp
  · intro p z hz
    rw [hwait] at hz
    have hne : z ≠ x := by
      rintro rfl
      obtain ⟨-, r, hr⟩ := hs.waiting hz
      exact hsleeps.2 (by rw [hr]; exact List.mem_cons_self)
    rw [hthr hne]
    exact h.waiting hz

/-- Work that is no transaction is taken off a list. -/
theorem Idle.dropWork {type : WorkType} (h : Idle s G) :
    Idle (s.setTodo l ((s.todo l).erase (.other type))) G := by
  have hmem {l' : WorkList} {w : Work} (hw : w ∈ (s.setTodo l ((s.todo l).erase (.other type))).todo l') :
      w ∈ s.todo l' := by
    rcases eq_or_ne l' l with rfl | hne
    · exact List.mem_of_mem_erase (by simpa using hw)
    · simpa [hne] using hw
  refine ⟨fun {x act} hact hid => h.idle hact hid, fun {x t} hd hnil hc ht => ?_, fun {x} hact hp => ?_,
    fun {p x} hx => h.waiting hx⟩
  · have hhead := h.first hd hnil hc (hmem ht)
    rcases eq_or_ne (WorkList.thread x) l with rfl | hne
    · obtain ⟨ws, hws⟩ := List.head?_eq_some_iff.mp hhead
      rw [TxnState.setTodo_todo, Function.update_self, hws, List.erase_cons_tail (by simp)]
      rfl
    · rwa [TxnState.setTodo_todo, Function.update_of_ne hne]
  · refine List.eq_nil_iff_forall_not_mem.mpr fun w hw => ?_
    have hw := hmem hw
    rw [h.quiet hact hp] at hw
    cases hw

/-- Every step keeps the chains. -/
theorem Sim.exec (h : Sim L s G) (hi : Inv L s) (hs : Sched L s) (he : s.exec L op = some s') :
    ∃ G', Sim L s' G' := by
  cases op with
  | transaction x n oneWay =>
    simp only [TxnState.exec, bind, Option.bind_eq_some_iff, Option.guard_eq_some', exists_const] at he
    obtain ⟨hidle, tp, -, he⟩ := he
    cases he
    exact ⟨G, h.start hi hs (frames_of_idle hidle) (.of_eq rfl rfl (fun _ => rfl) fun _ => rfl) rfl rfl rfl
      rfl (.one rfl (fun _ _ => trivial) rfl rfl (by simp))⟩
  | reply x oneWay =>
    simp only [TxnState.exec, bind, Option.bind_eq_some_iff, Option.guard_eq_some', exists_const] at he
    obtain ⟨hidle, irt, hst, T, hT, hto, he⟩ := he
    cases he
    exact ⟨_, h.reply hi hs (frames_of_idle hidle) (live_of_idle hidle).1 hst hT hto⟩
  | read x =>
    simp only [TxnState.exec, bind, Option.bind_eq_some_iff, Option.guard_eq_some', exists_const] at he
    obtain ⟨hidle, he⟩ := he
    cases he
    exact ⟨G, h.start hi hs (frames_of_idle hidle) (.of_eq rfl rfl (fun _ => rfl) fun _ => rfl) rfl rfl rfl
      rfl (.one rfl (fun _ _ => trivial) rfl rfl (by simp))⟩
  | freeBuffer x b =>
    simp only [TxnState.exec, bind, Option.bind_eq_some_iff, Option.guard_eq_some', exists_const] at he
    obtain ⟨hidle, B, hB, -, -, he⟩ := he
    cases he
    have hsame : SameNet s (s.setBuf b (some { B with allowUserFree := false })) :=
      .setBuf hB (by rintro _ ⟨⟩; exact ⟨rfl, rfl⟩)
    exact ⟨G, h.start hi hs (frames_of_idle hidle) hsame.setFrames rfl rfl rfl rfl
      (.one rfl (fun _ _ => trivial) rfl rfl (by simp))⟩
  | threadExit x fuel =>
    simp only [TxnState.exec, bind, Option.bind_eq_some_iff, Option.guard_eq_some', exists_const] at he
    exact ⟨_, h.exit hi hs (frames_of_idle he.1) (frames_of_idle he.1) he.2⟩
  | procDeath p =>
    cases he
    exact ⟨G, h.other hi hs (.of_eq rfl rfl (fun _ => rfl) fun _ => rfl) rfl (fun _ => rfl)
      (h.idle.other rfl (fun _ => rfl) rfl rfl)⟩
  | releaseThread p x fuel =>
    simp only [TxnState.exec, bind, Option.bind_eq_some_iff, Option.guard_eq_some', exists_const,
      TxnState.workerIdle, Bool.and_eq_true, List.isEmpty_iff] at he
    exact ⟨_, h.exit hi hs he.1.1 he.2.2.1 he.2.2.2⟩
  | releaseNode p n =>
    simp only [TxnState.exec, bind, Option.bind_eq_some_iff, Option.guard_eq_some', exists_const,
      TxnState.workerIdle, Bool.and_eq_true, List.isEmpty_iff] at he
    obtain ⟨⟨hfr, -⟩, -, he⟩ := he
    cases he
    refine ⟨G, h.start hi hs hfr (.of_eq rfl rfl (fun _ => rfl) fun _ => rfl) rfl rfl rfl rfl ?_⟩
    constructor <;> simp [Act.owns, Act.holds, Act.refs, ActSim, Act.idles, Act.lands]
  | releaseTodo p =>
    simp only [TxnState.exec, bind, Option.bind_eq_some_iff, Option.guard_eq_some', exists_const,
      TxnState.workerIdle, Bool.and_eq_true, List.isEmpty_iff] at he
    obtain ⟨⟨hfr, -⟩, he⟩ := he
    cases he
    exact ⟨G, h.start hi hs hfr (.of_eq rfl rfl (fun _ => rfl) fun _ => rfl) rfl rfl rfl rfl
      (.one rfl (fun _ _ => trivial) rfl rfl (by simp))⟩
  | addProcWork p type =>
    cases he
    exact ⟨G, h.other hi hs (.of_eq rfl rfl (fun _ => rfl) fun _ => rfl) rfl filterMap_enqueue_other
      (h.idle.other rfl (fun x => by simp) rfl rfl)⟩
  | addThreadWork x type deferred =>
    simp only [TxnState.exec, bind, Option.bind_eq_some_iff, Option.guard_eq_some', exists_const] at he
    obtain ⟨hw, he⟩ := he
    cases he
    have hidle := h.idle.addThreadWork type deferred hs hw
    cases deferred with
    | true =>
      exact ⟨G, h.other hi hs (.of_eq rfl rfl (fun _ => rfl) fun _ => rfl) rfl filterMap_enqueue_other hidle⟩
    | false =>
      have hst := SameTasks.enqueueThread (s := s) x (.other type)
      exact ⟨G, h.other hi hs (.of_eq rfl rfl hst.stack hst.threadDead) rfl filterMap_enqueue_other hidle⟩
  | dropWork l type =>
    cases he
    refine ⟨G, h.other hi hs (.of_eq rfl rfl (fun _ => rfl) fun _ => rfl) rfl (fun l' => ?_) h.idle.dropWork⟩
    rcases eq_or_ne l' l with rfl | hne
    · simp [filterMap_erase_other]
    · simp [hne]
  | run a env =>
    simp only [TxnState.exec] at he
    split at he
    · cases he
    · rename_i act rest hfr
      exact h.execAct hi hs hfr (execAct_cases he)

/-- The chains before any ioctl. -/
def Ghost.empty : Ghost where
  net := ⟨fun _ => [], fun _ => none, fun _ => none, fun _ => .absent⟩
  call _ := False
  stale _ := False

theorem sim_start (L : Layout) : Sim L (start L) .empty := by
  have hno : ∀ u, ¬ OnList (start L).owned u := by
    rintro u ⟨p, hp⟩
    cases p <;> cases hp
  refine ⟨?_, ?_, ?_, ?_, ?_⟩
  · constructor <;> simp [Ghost.empty, Net.Calls, Coming]
  · exact ⟨fun c => ⟨c, fun d hd => by cases hd⟩⟩
  · constructor <;> simp [start, Ghost.empty]
  · refine ⟨fun {t} => ?_, ?_, ?_, ?_, ?_, ?_, ?_, ?_, ?_⟩
    · simp [hno t, Ghost.empty]
    · exact ⟨fun p => by cases p <;> exact List.nodup_nil, fun hp => absurd ⟨_, hp⟩ (hno _)⟩
    all_goals simp [start]
  · constructor <;> simp [start]

/-- The chains are there in every run. -/
theorem sim_of_reach (h : (txnSys L).Reach s) : Inv L s ∧ Sched L s ∧ ∃ G, Sim L s G := by
  refine h.inv (I := fun s => Inv L s ∧ Sched L s ∧ ∃ G, Sim L s G) ?_ ?_
  · rintro s rfl
    exact ⟨(inv_start L).1, (inv_start L).2, _, sim_start L⟩
  · rintro s op s' ⟨hi, hs, G, h⟩ he
    exact ⟨hi.exec hs he, hs.exec hi he, h.exec hi hs he⟩

end Redroid.Binder.Txn
