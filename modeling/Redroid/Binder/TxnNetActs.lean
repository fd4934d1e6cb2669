import Redroid.Binder.TxnNetStep

/-!
# Calls, replies and failures of calls

* `Sim.exec_send`, `Sim.exec_buildCall`, `Sim.exec_deliveredCall`: a transaction is allocated, goes on
  its sender's stack, and on the stack of the thread that serves it.
* `Sim.resume`: `binder_pop_transaction_ilocked`; the guards in it hold (`Sim.pop_isSome`).
* `Sim.exec_failedParent`: `binder_send_failed_reply` passes the failure on to the call that the dead
  caller served. `Sim.free`: a transaction is freed.
* `Sim.execAct`: every step of a task keeps `Sim`.
-/

namespace Redroid.Binder.Txn

open CallChain Relation

variable {L : Layout} {s s' s₀ s₁ : TxnState} {G G' : Ghost} {t u r : TxnId} {b : BufId}
  {x y z : ThreadId} {T : Transaction} {B : Buffer} {a a' : Actor} {act act' : Act}
  {rest rest' m acts : List Act} {env : Env} {l : WorkList} {ws : List Work}

/-- A transaction is with one act of one task. -/
theorem Tasks.unique (h : Tasks L s G) (hact : act ∈ s.frames a) (ht : t ∈ act.owns)
    (hact' : act' ∈ s.frames a') (ht' : t ∈ act'.owns) : act = act' := by
  have haa : Place.actor a = .actor a' := h.placed.unique (mem_owned hact ht) (mem_owned hact' ht')
  cases haa
  by_contra hne
  have hp := (List.nodup_flatMap.mp (h.placed.nodup (.actor a))).2
  have : Std.Symm (Function.onFun List.Disjoint Act.owns) := ⟨fun _ _ hd => hd.symm⟩
  exact hp.forall hact hact' hne ht ht'

/-- What a task does not bring to user space, and no list has, comes to nobody. -/
theorem Tasks.not_coming {call : TxnId → Prop} (h : Tasks L s G) (hact : act ∈ s.frames a)
    (ht : t ∈ act.owns) (hb : act.brings = none) (hp : ∀ z y, act ≠ .procTransaction z t (some y)) :
    ¬ Coming s call x t := by
  rintro ⟨-, -, htodo | ⟨act', hact', hb'⟩ | ⟨a', z, hact'⟩⟩
  · exact h.not_todo hact ht htodo
  · have := h.unique hact ht hact' (mem_owns_of_brings hb')
    rw [this, hb'] at hb
    cases hb
  · exact hp z x (h.unique hact ht hact' (mem_owns_of_holds rfl))

/-- What another task knows stays in a step that changes the chains or ends a thread, if the
transactions that it works on are not touched. -/
theorem Stays.of (h : Tasks L s G) (hi : Inv L s) (hact' : act' ∈ s.frames a')
    (hdead : ∀ y, (s'.thread y).isDead = false → (s.thread y).isDead = false)
    (hself : ∀ y, act'.self = some y → (s'.thread y).isDead = false)
    (hcall : ∀ u ∈ act'.owns, (G'.call u ↔ G.call u))
    (hstale : ∀ u ∈ act'.owns, (G'.stale u ↔ G.stale u))
    (htxn : ∀ u ∈ act'.owns, ∃ T T', s.txn u = some T ∧ s'.txn u = some T' ∧ T'.oneWay = T.oneWay ∧
      T'.toProc = T.toProc ∧ (¬ (G.call u ∧ ¬ G.stale u) →
        T'.fromThread = T.fromThread ∧ T'.fromParent = T.fromParent))
    (hcaller : ∀ u ∈ act'.owns, ∀ y, (s'.thread y).isDead = false → G.net.caller u = some y →
      G'.net.caller u = some y)
    (hready : ∀ x th, s.frames (.thread x) = [act'] → act'.calls = true → Ready s G x th →
      Ready s' G' x th)
    (hne : ∀ x t y, act' = .procTransaction x t (some y) → G.call t → (s'.thread y).isDead = false →
      G.net.stack y ≠ [] → G'.net.stack y ≠ []) : Stays s s' G G' act' := by
  refine ⟨(h.acts hact').mono hdead hself (fun u hu => ⟨hcall u hu, hstale u hu⟩) (fun u hu T' hT' => ?_)
    (fun x u irt th T he hT => ?_) hcaller (fun x th hc hx hr => ?_) hne, hstale, hcaller,
    fun u hu T' hT' => ?_⟩
  · obtain ⟨T, T₁, hT, hT₁, ho, -⟩ := htxn u hu
    rw [hT'] at hT₁
    cases hT₁
    exact ⟨T, hT, ho⟩
  · subst he
    have hu : u ∈ (Act.build x u irt th).owns := mem_owns_of_holds rfl
    obtain ⟨T₁, T', hT₁, hT', ho, -, hfrom⟩ := htxn u hu
    rw [hT] at hT₁
    cases hT₁
    obtain ⟨-, hst, -⟩ := h.acts hact'
    obtain ⟨h₁, h₂⟩ := hfrom fun hc => hc.2 (hst.mpr hc.1)
    exact ⟨T', hT', h₁, h₂, ho⟩
  · have ha := hi.self hact' hx
    subst ha
    exact hready x th (hi.alone hact' hc) hc hr
  · obtain ⟨T, T₁, hT, hT₁, -, hp, -⟩ := htxn u hu
    rw [hT'] at hT₁
    cases hT₁
    exact ⟨T, hT, hp⟩

/-- The same in a step that ends no thread. -/
theorem Stays.net (h : Tasks L s G) (hi : Inv L s) (hs : Sched L s) (hact' : act' ∈ s.frames a')
    (hdead : ∀ y, (s'.thread y).isDead = (s.thread y).isDead)
    (hcall : ∀ u ∈ act'.owns, (G'.call u ↔ G.call u))
    (hstale : ∀ u ∈ act'.owns, (G'.stale u ↔ G.stale u))
    (htxn : ∀ u ∈ act'.owns, ∀ T, s.txn u = some T → ∃ T', s'.txn u = some T' ∧ T.Same T')
    (hcaller : ∀ u ∈ act'.owns, G'.net.caller u = G.net.caller u)
    (hready : ∀ x th, s.frames (.thread x) = [act'] → act'.calls = true → Ready s G x th →
      Ready s' G' x th)
    (hne : ∀ x t y, act' = .procTransaction x t (some y) → G.call t → (s.thread y).isDead = false →
      G.net.stack y ≠ [] → G'.net.stack y ≠ [])
    (hsome : ∀ u ∈ act'.owns, ∃ T, s.txn u = some T) : Stays s s' G G' act' := by
  refine .of h hi hact' (fun y hy => by rwa [hdead] at hy) (fun x hx => ?_) hcall hstale (fun u hu => ?_)
    (fun u hu y _ hc => by rwa [hcaller u hu]) hready
    fun x t y he hc hd hy => hne x t y he hc (by rwa [hdead] at hd) hy
  · rw [hdead]
    exact hs.alive hi hact' hx
  · obtain ⟨T, hT⟩ := hsome u hu
    obtain ⟨T', hT', he⟩ := htxn u hu T hT
    exact ⟨T, T', hT, hT', he.oneWay, he.toProc, fun _ => ⟨he.fromThread, he.fromParent⟩⟩

theorem Sim.owned_some (h : Sim L s G) (hact : act ∈ s.frames a) (ht : t ∈ act.owns) :
    ∃ T, s.txn t = some T :=
  h.data.txn (by rw [h.tasks.status hact ht]; simp)

/-! ## The end of a call -/

/-- `binder_pop_transaction_ilocked` finds what it expects. -/
theorem Sim.pop_isSome (h : Sim L s G) (ht : G.net.status t = .held) (hst : ¬ G.stale t)
    (hT : s.txn t = some T) (hy : T.fromThread = some y) :
    s.pop y t = some ((s.setStack y T.fromParent).setTxn t (some { T with fromThread := none })) := by
  have hc : G.net.caller t = some y := (h.data.fresh hT hst).1.trans hy
  obtain ⟨r, hr⟩ := h.ok.top ht hc
  have htop : (s.thread y).transactionStack = some t := by
    rw [h.data.top (h.data.alive (by simp [hr])), hr]
    rfl
  simp [TxnState.pop, hT, hy, htop]

/-- The call `t` is popped off the stack of its caller `y`, which goes on. `s'` is the state after
that, up to what the chains do not see. -/
theorem Sim.resume (h : Sim L s G) (hi : Inv L s) (hs : Sched L s) (ht : G.net.status t = .held)
    (hst : ¬ G.stale t) (hT : s.txn t = some T) (hy : T.fromThread = some y)
    (hnc : ∀ x, ¬ Coming s G.call x t)
    (hsame : SameNet ((s.setStack y T.fromParent).setTxn t (some { T with fromThread := none })) s')
    (hfr' : s'.frames = Function.update s.frames a (m ++ rest'))
    (hrest : ∀ act ∈ rest', act ∈ s.frames a) (hlands : ∀ act ∈ rest', act.lands = false)
    (hunw : ∀ u irt, .unwind u irt ∈ rest' → G.stale u) (hpop : ∀ x u, .popTransaction x u ∉ rest')
    (hother : ∀ a' act', act' ∈ s.frames a' → (a' = a → act' ∈ rest') → t ∉ act'.owns)
    (hown : Placed s'.owned ∧ ∀ u, OnList s'.owned u ↔ OnList s.owned u)
    (hcome : ∀ x u, Coming s' G.call x u → Coming s G.call x u)
    (hq : ∀ l u, .transaction u ∈ s'.todo l → u ≠ t ∧ ¬ G.stale u)
    (hnew : NewActs L s' ((G.withNet (G.net.resume y t)).over t) a m (m ++ rest'))
    (hidle : Idle s' ((G.withNet (G.net.resume y t)).over t)) :
    Sim L s' ((G.withNet (G.net.resume y t)).over t) := by
  have hc : G.net.caller t = some y := (h.data.fresh hT hst).1.trans hy
  obtain ⟨r, hr⟩ := h.ok.top ht hc
  have hdead (z : ThreadId) : (s'.thread z).isDead = (s.thread z).isDead :=
    (hsame.dead z).trans (isDead_setStack (s := s.setTxn t _) z)
  have hstack {z : ThreadId} (hz : z ≠ y) : (G.net.resume y t).stack z = G.net.stack z :=
    Function.update_of_ne hz ..
  have htxn {u : TxnId} {U : Transaction} (hu : u ≠ t) (hU : s.txn u = some U) :
      ∃ U', s'.txn u = some U' ∧ U.Same U' := by
    rcases hsame.txn u with he | ⟨U₀, hU₀, he⟩
    · exact ⟨U, by rw [he]; simpa [hu] using hU, ⟨rfl, rfl, rfl, rfl, rfl, rfl, .inl rfl⟩⟩
    · have hU₁ : s.txn u = some U₀ := by simpa [hu] using hU₀
      rw [hU] at hU₁
      cases hU₁
      exact ⟨_, he, ⟨rfl, rfl, rfl, rfl, rfl, rfl, .inr rfl⟩⟩
  refine ⟨(h.ok.resume ht hr hnc).mono hcome, h.ends.mono fun p c hpc => ?_,
    (h.data.resume h.ok hr ht hT hst).same hsame, ?_, hidle⟩
  · rw [Net.Calls, Ghost.over_net, Ghost.withNet_net, Net.resume_parent] at hpc
    rcases eq_or_ne c t with rfl | hne
    · rw [Function.update_self] at hpc
      cases hpc
    · rwa [Function.update_of_ne hne] at hpc
  · refine h.tasks.turn hfr' hrest hlands (fun u irt hu => .inr (hunw u irt hu)) hpop
      (fun a' act' x hact' hx => by rw [hdead]; exact hs.alive hi hact' hx)
      (fun u => h.tasks.held.trans (hown.2 u).symm) hown.1 (fun l u hu => ?_) hnew
      fun a' act' hact' hne => ?_
    · rintro (he | hs')
      · exact (hq l u hu).1 he
      · exact (hq l u hu).2 hs'
    · have hnt : ∀ u ∈ act'.owns, u ≠ t := fun u hu he => hother a' act' hact' hne (he ▸ hu)
      refine .net h.tasks hi hs hact' hdead (fun _ _ => .rfl) (fun u hu => ?_)
        (fun u hu U hU => htxn (hnt u hu) hU) (fun u hu => Function.update_of_ne (hnt u hu) ..)
        (fun x th hfx hcx hr' => ?_) (fun x u z he hcu hd hz => ?_) fun u hu => h.owned_some hact' hu
      · exact or_iff_right (hnt u hu)
      · have hxy : x ≠ y := by
          rintro rfl
          exact hr'.top _ _ hr
        refine hr'.mono (hstack hxy) (fun u hu => hcome x u hu) fun z hd => ⟨by rwa [hdead] at hd, ?_⟩
        exact fun hw => h.ok.waits_resume hw ht hr
      · have hzy : z ≠ y := by
          rintro rfl
          -- `u` descends from the call on top of the stack of `z`
          have hcoming : Coming s G.call z u := ⟨hd, hcu, .inr (.inr ⟨a', x, he ▸ hact'⟩)⟩
          rcases h.ok.due hcoming with ⟨hnil, -⟩ | ⟨v, l, hv, hvu⟩
          · exact hz hnil
          · rw [hr] at hv
            cases hv
            exact h.ok.not_transGen ht hvu
        rwa [Ghost.over_net, Ghost.withNet_net, hstack hzy]

/-- A thread whose stack is empty after the end of a call: no call is on its list. -/
theorem Sim.resume_nil {r' : List (Entry TxnId)} (h : Sim L s G) (ht : G.net.status t = .held)
    (hr : G.net.stack y = .call t :: r') (hd : (s.thread x).isDead = false)
    (hx : (G.net.resume y t).stack x = []) (hc : G.call u) (hu : .transaction u ∈ s.todo (.thread x)) :
    G.net.stack x = [] := by
  rcases eq_or_ne x y with rfl | hne
  · rcases h.ok.due (x := x) (t := u) ⟨hd, hc, .inl hu⟩ with ⟨hnil, -⟩ | ⟨v, l, hv, hvu⟩
    · exact hnil
    · rw [hr] at hv
      cases hv
      exact absurd hvu (h.ok.not_transGen ht)
  · rwa [Net.resume_stack, Function.update_of_ne hne] at hx

theorem resume_stack_nil {g : Net ThreadId TxnId} (hx : g.stack x = []) : (g.resume y t).stack x = [] := by
  rw [Net.resume_stack]
  rcases eq_or_ne x y with rfl | hne
  · rw [Function.update_self, hx, List.tail_nil]
  · rwa [Function.update_of_ne hne]

theorem Sim.exec_pop (h : Sim L s G) (hi : Inv L s) (hs : Sched L s)
    (hfr : s.frames a = .popTransaction x t :: rest) :
    ∃ s₁ G', s.pop x t = some s₁ ∧ Sim L (s₁.setFrames a rest) G' := by
  obtain ⟨hc, hst, r, hr, hnp⟩ := h.tasks.pops (hfr ▸ List.mem_cons_self)
  rw [hfr, List.cons.injEq] at hr
  obtain ⟨-, rfl⟩ := hr
  have hact : .unwind t none ∈ s.frames a := by rw [hfr]; simp
  have ht := h.tasks.status hact (t := t) (mem_owns_of_holds rfl)
  obtain ⟨T, hT⟩ := h.owned_some hact (t := t) (mem_owns_of_holds rfl)
  have hy : T.fromThread = some x := (h.data.fresh hT hst).1.symm.trans hc
  have hpop := h.pop_isSome ht hst hT hy
  obtain ⟨r', hr'⟩ := h.ok.top ht hc
  have hn := h.tasks.placed.nodup (.actor a)
  rw [owned_actor hfr, List.flatMap_cons] at hn
  have hother : ∀ a' act', act' ∈ s.frames a' → (a' = a → act' ∈ r) → t ∉ act'.owns := by
    intro a' act' hact' hne ht'
    have haa : Place.actor a' = .actor a :=
      h.tasks.placed.unique (mem_owned hact' ht') (mem_owned hact (mem_owns_of_holds rfl))
    cases haa
    have := (List.nodup_append.mp (List.nodup_append.mp hn).2.1).2.2 t (mem_owns_of_holds rfl) t
      (List.mem_flatMap.mpr ⟨act', hne rfl, ht'⟩)
    exact this rfl
  have hin : ∀ act ∈ r, act ∈ s.frames a := fun act h' => by rw [hfr]; simp [h']
  obtain ⟨s', hs'⟩ : ∃ s', s' = (((s.setStack x T.fromParent).setTxn t (some { T with
    fromThread := none })).setFrames a (.unwind t none :: r)) := ⟨_, rfl⟩
  have hfr' : s'.frames = Function.update s.frames a ([.unwind t none] ++ r) := by rw [hs']; rfl
  have htodo : s'.todo = s.todo := by rw [hs']; rfl
  have hdead (z : ThreadId) : (s'.thread z).isDead = (s.thread z).isDead := by
    rw [hs']
    exact isDead_setStack (s := s) z
  have hafter := h.tasks.after a
  rw [hfr, List.pairwise_cons] at hafter
  refine ⟨_, (G.withNet (G.net.resume x t)).over t, hpop, ?_⟩
  rw [← hs']
  refine h.resume hi hs ht hst hT hy (fun z => h.tasks.not_coming hact (mem_owns_of_holds rfl) rfl (by simp))
    (by rw [hs']; exact .of_eq rfl rfl (fun _ => rfl) fun _ => rfl) hfr' hin (fun act h' => ?_)
    (fun u irt h' => ?_) hnp hother (owned_same h.tasks hfr (by simp [htodo]) hfr' rfl)
    (fun z u hu => ?_) (fun l u hu => ?_) ?_ ?_
  · by_contra hl
    have := h.tasks.lands (hin act h') (by simpa using hl)
    rw [hfr] at this
    cases this
  · refine (h.tasks.unwinds (hin _ h')).resolve_right ?_
    rintro ⟨z, r₂, he⟩
    rw [hfr, List.cons.injEq] at he
    cases he.1
    exact hother a _ (hin _ h') (fun _ => h') (mem_owns_of_holds rfl)
  · exact (coming_step (P := False) hfr hfr' (List.sublist_cons_self _ _) (fun hd => by rwa [hdead] at hd)
      id (fun h' => .inl (by rwa [htodo] at h')) (by simp [Act.brings]) (by simp) hu).resolve_right id
  · rw [htodo] at hu
    refine ⟨?_, h.tasks.queued hu⟩
    rintro rfl
    exact h.tasks.not_todo hact (mem_owns_of_holds rfl) hu
  · refine ⟨by simp [ActSim], ?_, by simp, ?_, by simp [Act.lands], hafter.2⟩
    · rintro u irt h'
      cases List.mem_singleton.mp h'
      exact .inl (.inl rfl)
    · intro z act' u T' _ h' hb
      cases List.mem_singleton.mp h'
      cases hb
  · refine h.idle.calm hfr' hin (fun z => by rw [htodo]) (fun z => ?_) (fun p z hz => ?_)
      (fun z hd => by rwa [hdead] at hd) (fun z _ hz => resume_stack_nil hz)
      (fun z u hd hz hc' hu => ⟨hc', h.resume_nil ht hr' (by rwa [hdead] at hd) hz hc' hu⟩)
      (by simp [Act.idles])
    · rw [hs']
      rcases eq_or_ne z x with rfl | hne
      · simp
      · simp [hne]
    · rw [hs'] at hz
      exact hz

/-- A task ends the call `t`, which it works on, and frees it next. -/
theorem Sim.resume_free (h : Sim L s G) (hi : Inv L s) (hs : Sched L s) (hfr : s.frames a = act :: rest)
    (hact : ∀ x t, act ≠ .popTransaction x t) (hto : t ∈ act.owns) (hb : act.brings = none)
    (hp : ∀ z y, act ≠ .procTransaction z t (some y)) (hst : ¬ G.stale t) (hT : s.txn t = some T)
    (hy : T.fromThread = some y)
    (hsame : SameNet ((s.setStack y T.fromParent).setTxn t (some { T with fromThread := none })) s')
    (hfr' : s'.frames = Function.update s.frames a ([.freeTransaction t] ++ rest))
    (hown : Placed s'.owned ∧ ∀ u, OnList s'.owned u ↔ OnList s.owned u)
    (htodo : ∀ l u, .transaction u ∈ s'.todo l → .transaction u ∈ s.todo l ∨
      u ≠ t ∧ ¬ G.stale u ∧ ¬ G.call u)
    (hidle : Idle s' ((G.withNet (G.net.resume y t)).over t)) :
    Sim L s' ((G.withNet (G.net.resume y t)).over t) := by
  have hmem : act ∈ s.frames a := hfr ▸ List.mem_cons_self
  have hin : ∀ act' ∈ rest, act' ∈ s.frames a := fun act' h' => hfr ▸ List.mem_cons_of_mem act h'
  have hdead (z : ThreadId) : (s'.thread z).isDead = (s.thread z).isDead :=
    (hsame.dead z).trans (isDead_setStack (s := s) z)
  refine h.resume hi hs (h.tasks.status hmem hto) hst hT hy (fun x => h.tasks.not_coming hmem hto hb hp)
    hsame hfr' hin (fun act' h' => ?_) (fun u irt h' => ?_) (fun x u h' => ?_)
    (fun a' act' h' hne => h.tasks.other hfr hto h' hne) hown (fun x u hu => ?_) (fun l u hu => ?_) ?_ hidle
  · by_contra hl
    have := h.tasks.lands (hin act' h') (by simpa using hl)
    rw [hfr] at this
    cases this
    cases h'
  · refine (h.tasks.unwinds (hin _ h')).resolve_right ?_
    rintro ⟨x, r, he⟩
    rw [hfr] at he
    cases he
    exact hact x u rfl
  · obtain ⟨-, -, r, he, -⟩ := h.tasks.pops (hin _ h')
    rw [hfr] at he
    cases he
    exact hact x u rfl
  · have hcall : G.call u := hu.2.1
    refine (coming_step (P := False) hfr hfr' (.refl _) (fun hd => by rwa [hdead] at hd) id (fun h' => ?_)
      (by simp [Act.brings]) (by simp) hu).resolve_right id
    exact .inl ((htodo _ u h').resolve_right fun hn => hn.2.2 hcall)
  · rcases htodo l u hu with hu | ⟨hne, hs', -⟩
    · refine ⟨?_, h.tasks.queued hu⟩
      rintro rfl
      exact h.tasks.not_todo hmem hto hu
    · exact ⟨hne, hs'⟩
  · have hafter := h.tasks.after a
    rw [hfr, List.pairwise_cons] at hafter
    refine ⟨?_, by simp, by simp, ?_, by simp [Act.lands], ?_⟩
    · intro act' h'
      rw [List.mem_singleton.mp h']
      exact .inl rfl
    · intro z act' u T' _ h' hb'
      rw [List.mem_singleton.mp h'] at hb'
      cases hb'
    · exact List.pairwise_cons.mpr ⟨by simp [Act.reads], hafter.2⟩

/-- The end of a failed call: its caller, which has left its stack's top, gets an error. -/
theorem Sim.exec_failedReply (env : Env) (h : Sim L s G) (hi : Inv L s) (hs : Sched L s)
    (hfr : s.frames a = .sendFailedReply t :: rest) (hT : s.txn t = some T) (hy : T.fromThread = some y) :
    ∃ s₁ G', s.pop y t = some s₁ ∧
      Sim L ((if env.ok then s₁.enqueueThread y (.other .returnError) else s₁).setFrames a
        (.freeTransaction t :: rest)) G' := by
  have hact : .sendFailedReply t ∈ s.frames a := hfr ▸ List.mem_cons_self
  have hto : t ∈ (Act.sendFailedReply t).owns := by simp [Act.owns, Act.refs]
  obtain ⟨hc, hst⟩ := h.tasks.acts hact
  have ht := h.tasks.status hact hto
  have hpop := h.pop_isSome ht hst hT hy
  obtain ⟨r, hr⟩ := h.ok.top ht ((h.data.fresh hT hst).1.trans hy)
  have hwait : ∀ p, y ∉ s.waitingThreads p := fun p hw => by
    rw [(h.waiting_idle hs hw).1] at hr
    cases hr
  refine ⟨_, (G.withNet (G.net.resume y t)).over t, hpop, ?_⟩
  obtain ⟨s₁, hs₁⟩ : ∃ s₁, s₁ = (s.setStack y T.fromParent).setTxn t (some { T with
    fromThread := none }) := ⟨_, rfl⟩
  rw [← hs₁]
  have htodo₁ : s₁.todo = s.todo := by rw [hs₁]; rfl
  have hframes₁ : s₁.frames = s.frames := by rw [hs₁]; rfl
  have hwait₁ : s₁.waitingThreads = s.waitingThreads := by rw [hs₁]; rfl
  have hthr₁ (z : ThreadId) : (s₁.thread z).processTodo = (s.thread z).processTodo := by
    rw [hs₁]
    rcases eq_or_ne z y with rfl | hne
    · simp
    · simp [hne]
  have hdead₁ (z : ThreadId) : (s₁.thread z).isDead = (s.thread z).isDead := by
    rw [hs₁]
    exact isDead_setStack (s := s) z
  have hstk {z : ThreadId} {u : TxnId} (hd : (s.thread z).isDead = false)
      (hz : (G.net.resume y t).stack z = []) (hcu : G.call u) (hu : .transaction u ∈ s.todo (.thread z)) :
      G.call u ∧ G.net.stack z = [] := ⟨hcu, h.resume_nil ht hr hd hz hcu hu⟩
  have hin : ∀ act' ∈ rest, act' ∈ s.frames a := fun act' h' => hfr ▸ List.mem_cons_of_mem _ h'
  cases env.ok with
  | false =>
    refine h.resume_free hi hs hfr (by simp) hto rfl (by simp) hst hT hy ?_ ?_ ?_ (fun l u hu => .inl ?_) ?_
    · rw [hs₁]
      exact .of_eq rfl rfl (fun _ => rfl) fun _ => rfl
    · simp [hframes₁]
    · exact owned_same (m := [.freeTransaction t]) h.tasks hfr (by simp [htodo₁])
        (by simp [hframes₁]) rfl
    · simpa [htodo₁] using hu
    · exact h.idle.calm (m := [.freeTransaction t]) (by simp [hframes₁]) hin
        (fun z => by simp [htodo₁]) (fun z => by simpa using hthr₁ z)
        (fun p z hz => by simpa [hwait₁] using hz) (fun z hd => by simpa [hdead₁] using hd)
        (fun z _ hz => resume_stack_nil hz)
        (fun z u hd hz hcu hu => hstk (by simpa [hdead₁] using hd) hz hcu hu) (by simp [Act.idles])
  | true =>
    have hfr' : ((s₁.enqueueThread y (.other .returnError)).setFrames a (.freeTransaction t :: rest)).frames =
        Function.update s.frames a ([.freeTransaction t] ++ rest) := by
      simp [hframes₁]
    have hst₂ := SameTasks.enqueueThread (s := s₁) y (.other .returnError)
    refine h.resume_free hi hs hfr (by simp) hto rfl (by simp) hst hT hy ?_ hfr' ?_ (fun l u hu => .inl ?_) ?_
    · rw [← hs₁]
      exact .of_eq rfl rfl hst₂.stack hst₂.threadDead
    · refine owned_same h.tasks hfr (fun l => ?_) hfr' rfl
      rw [← htodo₁]
      exact filterMap_enqueue_other (s := s₁) l
    · rw [← htodo₁]
      have hu : .transaction u ∈ (s₁.enqueue (.thread y) (.other .returnError)).todo l := hu
      rcases eq_or_ne l (.thread y) with rfl | hne
      · simpa using hu
      · simpa [hne] using hu
    · refine h.idle.put (w := .other .returnError) (y := y) hfr' hin ?_ ?_ (fun z hz => ?_) (fun p z hz => ?_)
        (fun z hd => ?_) (fun z _ hz => resume_stack_nil hz) (fun z u hd hz hcu hu => ?_) (by simp)
        (by simp [Act.idles])
      · rw [← htodo₁]
        rfl
      · simp
      · simpa [hz] using hthr₁ z
      · have hz' : z ∈ s.waitingThreads p := by rw [← hwait₁]; exact hz
        refine ⟨?_, hz'⟩
        rintro rfl
        exact hwait p hz'
      · rw [← hdead₁, ← hst₂.threadDead]
        exact hd
      · refine hstk ?_ hz hcu hu
        rw [← hdead₁, ← hst₂.threadDead]
        exact hd

/-- A reply goes to the thread that has called. -/
theorem Sim.exec_buildReply (h : Sim L s G) (hi : Inv L s) (hs : Sched L s)
    (hfr : s.frames a = .build x t (some r) (some y) :: rest) (hd : (s.thread y).isDead = false) :
    ∃ s₁ G', s.pop y r = some s₁ ∧
      Sim L ((s₁.enqueueThread y (.transaction t)).setFrames a (.freeTransaction r :: rest)) G' := by
  have hact : .build x t (some r) (some y) ∈ s.frames a := hfr ▸ List.mem_cons_self
  have hro : r ∈ (Act.build x t (some r) (some y)).owns := by simp [Act.owns, Act.refs]
  have hto : t ∈ (Act.build x t (some r) (some y)).owns := mem_owns_of_holds rfl
  obtain ⟨hreply, hstc, Tt, hTt, -, -, hct, -⟩ := h.tasks.acts hact
  have hnct : ¬ G.call t := fun hc => by cases (hct.mp hc).1
  obtain ⟨hc, hst, y', hy', hcaller⟩ := hreply r rfl
  cases hy'
  have hcaller := hcaller hd
  obtain ⟨T, hT⟩ := h.owned_some hact hro
  have hy : T.fromThread = some y := (h.data.fresh hT hst).1.symm.trans hcaller
  have ht := h.tasks.status hact hro
  have hpop := h.pop_isSome ht hst hT hy
  obtain ⟨r', hr⟩ := h.ok.top ht hcaller
  have htr : t ≠ r := fun he => hnct (he ▸ hc)
  refine ⟨_, (G.withNet (G.net.resume y r)).over r, hpop, ?_⟩
  obtain ⟨s₁, hs₁⟩ : ∃ s₁, s₁ = (s.setStack y T.fromParent).setTxn r (some { T with
    fromThread := none }) := ⟨_, rfl⟩
  rw [← hs₁]
  have htodo₁ : s₁.todo = s.todo := by rw [hs₁]; rfl
  have hframes₁ : s₁.frames = s.frames := by rw [hs₁]; rfl
  have hwait₁ : s₁.waitingThreads = s.waitingThreads := by rw [hs₁]; rfl
  have hthr₁ (z : ThreadId) : (s₁.thread z).processTodo = (s.thread z).processTodo := by
    rw [hs₁]
    rcases eq_or_ne z y with rfl | hne
    · simp
    · simp [hne]
  have hdead₁ (z : ThreadId) : (s₁.thread z).isDead = (s.thread z).isDead := by
    rw [hs₁]
    exact isDead_setStack (s := s) z
  have hin : ∀ act' ∈ rest, act' ∈ s.frames a := fun act' h' => hfr ▸ List.mem_cons_of_mem _ h'
  have hst₂ := SameTasks.enqueueThread (s := s₁) y (.transaction t)
  have hfr' : ((s₁.enqueueThread y (.transaction t)).setFrames a (.freeTransaction r :: rest)).frames =
      Function.update s.frames a ([.freeTransaction r] ++ rest) := by
    simp [hframes₁]
  have htodo' : ((s₁.enqueueThread y (.transaction t)).setFrames a (.freeTransaction r :: rest)).todo =
      Function.update s.todo (.thread y) (s.todo (.thread y) ++ [.transaction t]) := by
    rw [← htodo₁]
    rfl
  refine h.resume_free hi hs hfr (by simp) hro rfl (by simp) hst hT hy ?_ hfr'
    (owned_put h.tasks hfr htodo' hfr' rfl) (fun l u hu => ?_) ?_
  · rw [← hs₁]
    exact .of_eq rfl rfl hst₂.stack hst₂.threadDead
  · rw [htodo'] at hu
    rcases eq_or_ne l (.thread y) with rfl | hne
    · rw [Function.update_self, List.mem_append, List.mem_singleton] at hu
      refine hu.imp_right fun hu => ?_
      cases hu
      exact ⟨htr, fun hs' => hnct (hstc.mp hs'), hnct⟩
    · rw [Function.update_of_ne hne] at hu
      exact .inl hu
  · have hdead (z : ThreadId) : (((s₁.enqueueThread y (.transaction t)).setFrames a
        (.freeTransaction r :: rest)).thread z).isDead = (s.thread z).isDead :=
      (hst₂.threadDead z).trans (hdead₁ z)
    refine h.idle.put hfr' hin htodo' ?_ (fun z hz => ?_) (fun p z hz => ?_) (fun z hd => ?_)
      (fun z _ hz => resume_stack_nil hz) (fun z u hd hz hcu hu => ⟨hcu, ?_⟩) (fun u hu _ _ hcu => ?_)
      (by simp [Act.idles])
    · simp
    · simpa [hz] using hthr₁ z
    · have hz' : z ∈ s.waitingThreads p := by rw [← hwait₁]; exact hz
      refine ⟨?_, hz'⟩
      rintro rfl
      rw [(h.waiting_idle hs hz').1] at hr
      cases hr
    · rwa [hdead] at hd
    · exact h.resume_nil ht hr (by rwa [hdead] at hd) hz hcu hu
    · cases hu
      exact absurd hcu hnct

/-- The failure of a call whose caller is dead goes on to the call that this has served. -/
theorem Sim.exec_failedParent (h : Sim L s G) (hi : Inv L s) (hs : Sched L s)
    (hfr : s.frames a = .sendFailedReply t :: rest) (hT : s.txn t = some T) (hy : T.fromThread = none) :
    ∃ G', Sim L (s.setFrames a (.freeTransaction t :: (TxnState.onError T.fromParent ++ rest))) G' := by
  have hact : .sendFailedReply t ∈ s.frames a := hfr ▸ List.mem_cons_self
  have hto : t ∈ (Act.sendFailedReply t).owns := by simp [Act.owns, Act.refs]
  obtain ⟨hc, hst⟩ := h.tasks.acts hact
  obtain ⟨h₁, h₂⟩ := h.data.fresh hT hst
  cases hp : T.fromParent with
  | none => exact ⟨_, h.toFree hi hs hfr (by simp) rfl hst hT ⟨hy, hp⟩⟩
  | some p =>
    have ht := h.tasks.status hact hto
    have hcaller : G.net.caller t = none := h₁.trans hy
    have hpt : G.net.Calls p t := h₂.trans hp
    have hleft : G.net.status p = .left := by
      rcases h.ok.parent hpt with ⟨z, hz, -⟩ | ⟨-, hs⟩
      · rw [hcaller] at hz
        cases hz
      · exact hs
    have hpt' : p ≠ t := by
      rintro rfl
      rw [ht] at hleft
      cases hleft
    obtain ⟨hpc, hps⟩ := h.data.stacked (t := p) (by simp [hleft]) (by simp [hleft])
    have hfr' : (s.setFrames a (.freeTransaction t :: (TxnState.onError (some p) ++ rest))).frames =
        Function.update s.frames a ([.freeTransaction t, .sendFailedReply p] ++ rest) := rfl
    have hsame : SameNet s (s.setFrames a (.freeTransaction t :: (TxnState.onError (some p) ++ rest))) :=
      .of_eq rfl rfl (fun _ => rfl) fun _ => rfl
    have hnc : ∀ x, ¬ Coming s G.call x t := fun x =>
      h.tasks.not_coming hact hto rfl (by simp)
    have hcome {z : ThreadId} {u : TxnId} (hu : Coming (s.setFrames a (.freeTransaction t ::
        (TxnState.onError (some p) ++ rest))) G.call z u) : Coming s G.call z u :=
      coming_setFrames (m := [.freeTransaction t, .sendFailedReply p]) hfr (by simp [Act.brings])
        (by simp) hu
    have htodo' : (s.setFrames a (.freeTransaction t :: (TxnState.onError (some p) ++ rest))).todo =
        s.todo := rfl
    obtain ⟨hplaced, hon⟩ := owned_take h.tasks htodo' hfr'
      (fun ho => by rw [h.tasks.held.mpr ho] at hleft; cases hleft)
      (.inr ⟨t, rest.flatMap Act.owns, owned_actor hfr, rfl⟩)
    have hafter := h.tasks.after a
    rw [hfr, List.pairwise_cons] at hafter
    refine ⟨(G.withNet (G.net.pass t p)).over t, (h.ok.pass ht hcaller hpt hnc).mono fun z u hu => hcome hu,
      h.ends.mono fun q c hqc => ?_, (h.data.pass h.ok ht hcaller hpt).same hsame, ?_, ?_⟩
    · rw [Net.Calls, Ghost.over_net, Ghost.withNet_net, Net.pass_parent] at hqc
      rcases eq_or_ne c t with rfl | hne
      · rw [Function.update_self] at hqc
        cases hqc
      · rwa [Function.update_of_ne hne] at hqc
    · refine h.tasks.step hfr (by simp) hfr' (.refl _)
        (fun a' act' x hact' hx => hs.alive hi hact' hx) (fun u => ?_) hplaced (fun l u hu => ?_) ?_
        fun a' act' hact' hne => ?_
      · rw [hon, ← h.tasks.held, Ghost.over_net, Ghost.withNet_net, Net.pass_status]
        rcases eq_or_ne u p with rfl | hne
        · simp
        · simp [hne]
      · rintro (rfl | hu')
        · exact h.tasks.not_todo hact hto hu
        · exact h.tasks.queued hu hu'
      · refine ⟨?_, by simp, by simp, ?_, by simp [Act.lands], ?_⟩
        · intro act' h'
          simp only [List.mem_cons, List.not_mem_nil, or_false] at h'
          rcases h' with rfl | rfl
          · exact .inl rfl
          · exact ⟨hpc, fun hs' => hs'.elim hpt' hps⟩
        · intro z act' u T' _ h' hb
          simp only [List.mem_cons, List.not_mem_nil, or_false] at h'
          rcases h' with rfl | rfl <;> cases hb
        · exact List.pairwise_cons.mpr ⟨by simp [Act.reads], List.pairwise_cons.mpr ⟨by simp [Act.reads],
            hafter.2⟩⟩
      · have hnt : ∀ u ∈ act'.owns, u ≠ t := fun u hu he => h.tasks.other hfr hto hact' hne (he ▸ hu)
        exact .net h.tasks hi hs hact' (fun _ => rfl) (fun _ _ => .rfl)
          (fun u hu => or_iff_right (hnt u hu))
          (fun u hu U hU => ⟨U, hU, ⟨rfl, rfl, rfl, rfl, rfl, rfl, .inl rfl⟩⟩) (fun _ _ => rfl)
          (fun x th _ _ hr => hr.mono rfl (fun u hu => hcome hu) fun z hd =>
            ⟨hd, fun hw => h.ok.waits_pass hw ht⟩) (fun _ _ _ _ _ _ => id) fun u hu =>
              h.owned_some hact' hu
    · exact h.idle.calm hfr' (fun act' h' => hfr ▸ List.mem_cons_of_mem _ h') (fun _ => rfl) (fun _ => rfl)
        (fun _ _ => id) (fun _ => id) (fun _ _ => id) (fun _ _ _ hz hcu _ => ⟨hcu, hz⟩)
        (by simp [Act.idles])

/-- A task frees a transaction that it works on. -/
theorem Sim.free (h : Sim L s G) (hi : Inv L s) (hs : Sched L s) (hfr : s.frames a = act :: rest)
    (hact : ∀ x t, act ≠ .popTransaction x t) (howns : act.owns = t :: m.flatMap Act.owns)
    (hb : act.brings = none) (hp : ∀ z y, act ≠ .procTransaction z t (some y)) (hst : G.stale t)
    (hnew : m = [] ∨ ∃ r, m = [.sendFailedReply r] ∧ G.call r ∧ ¬ G.stale r)
    (hsame : SameNet (s.setTxn t none) s') (hfr' : s'.frames = Function.update s.frames a (m ++ rest))
    (htodo : s'.todo = s.todo) (hthr : s'.thread = s.thread)
    (hwait : s'.waitingThreads = s.waitingThreads) : Sim L s' (G.withNet (G.net.finish t)) := by
  have hmem : act ∈ s.frames a := hfr ▸ List.mem_cons_self
  have hto : t ∈ act.owns := by rw [howns]; exact List.mem_cons_self
  have ht := h.tasks.status hmem hto
  obtain ⟨hc, hpar⟩ := h.data.stale hst
  have hnewb : ∀ act' ∈ m, act'.brings = none ∧ act'.lands = false ∧ act'.idles = none ∧
      act'.reads = false ∧ (∀ x t, act' ≠ .popTransaction x t) ∧ (∀ t irt, act' ≠ .unwind t irt) ∧
      ∀ x t th, act' ≠ .procTransaction x t th := by
    rcases hnew with rfl | ⟨r, rfl, -⟩ <;> simp [Act.brings, Act.lands, Act.idles, Act.reads]
  have hcome {z : ThreadId} {u : TxnId} (hu : Coming s' G.call z u) : Coming s G.call z u :=
    (coming_step (P := False) hfr hfr' (.refl _) (fun hd => by rwa [hthr] at hd) id
      (fun hu => .inl (by rwa [htodo] at hu))
      (fun act' h' hb' _ => by rw [(hnewb act' h').1] at hb'; cases hb')
      (fun z h' => (hnewb _ h').2.2.2.2.2.2 z _ _ rfl) hu).resolve_right id
  obtain ⟨hplaced, hon⟩ := owned_free h.tasks hfr htodo hfr' howns
  have hafter := h.tasks.after a
  rw [hfr, List.pairwise_cons] at hafter
  refine ⟨(h.ok.finish ht hc hpar fun x => h.tasks.not_coming hmem hto hb hp).mono fun z u hu => hcome hu,
    h.ends, (h.data.free ht).same hsame, ?_, ?_⟩
  · refine h.tasks.step hfr hact hfr' (.refl _) (fun a' act' x hact' hx => ?_) (fun u => ?_) hplaced
      (fun l u hu => h.tasks.queued (by rwa [htodo] at hu)) ?_ fun a' act' hact' hne => ?_
    · rw [hthr]
      exact hs.alive hi hact' hx
    · rw [hon, ← h.tasks.held, Ghost.withNet_net, Net.finish_status]
      rcases eq_or_ne u t with rfl | hne
      · simp
      · simp [hne]
    · refine ⟨?_, fun u irt h' => absurd rfl ((hnewb _ h').2.2.2.2.2.1 u irt),
        fun x u h' => absurd rfl ((hnewb _ h').2.2.2.2.1 x u), fun x act' u U _ h' hb' => ?_,
        fun act' h' hl => ?_, ?_⟩
      · rcases hnew with rfl | ⟨r, rfl, hr⟩
        · simp
        · simpa [ActSim] using hr
      · rw [(hnewb act' h').1] at hb'
        cases hb'
      · rw [(hnewb act' h').2.1] at hl
        cases hl
      · rcases hnew with rfl | ⟨r, rfl, -⟩
        · exact hafter.2
        · exact List.pairwise_cons.mpr ⟨by simp [Act.reads], hafter.2⟩
    · have hnt : ∀ u ∈ act'.owns, u ≠ t := fun u hu he => h.tasks.other hfr hto hact' hne (he ▸ hu)
      refine .net h.tasks hi hs hact' (fun y => by rw [hthr]) (fun _ _ => .rfl) (fun _ _ => .rfl)
        (fun u hu U hU => ?_) (fun _ _ => rfl) (fun x th _ _ hr => hr.mono rfl (fun u hu => hcome hu)
          fun z hd => ⟨by rwa [hthr] at hd, id⟩) (fun _ _ _ _ _ _ => id) fun u hu => h.owned_some hact' hu
      rcases hsame.txn u with he | ⟨U₀, hU₀, he⟩
      · exact ⟨U, by rw [he]; simpa [hnt u hu] using hU, ⟨rfl, rfl, rfl, rfl, rfl, rfl, .inl rfl⟩⟩
      · have hU₁ : s.txn u = some U₀ := by simpa [hnt u hu] using hU₀
        rw [hU] at hU₁
        cases hU₁
        exact ⟨_, he, ⟨rfl, rfl, rfl, rfl, rfl, rfl, .inr rfl⟩⟩
  · exact h.idle.calm hfr' (fun act' h' => hfr ▸ List.mem_cons_of_mem _ h') (fun _ => by rw [htodo])
      (fun _ => by rw [hthr]) (fun _ _ hz => by rwa [hwait] at hz) (fun _ hd => by rwa [hthr] at hd)
      (fun _ _ => id) (fun _ _ _ hz hcu _ => ⟨hcu, hz⟩) fun act' h' => (hnewb act' h').2.2.1

/-! ## The start of a call -/

/-- The id of the next transaction is of none so far. -/
theorem Sim.ne_nextTxn (h : Sim L s G) (hi : Inv L s) (ht : G.net.status t ≠ .absent) : t ≠ s.nextTxn := by
  obtain ⟨T, hT⟩ := h.data.txn ht
  exact (hi.links.txn_lt hT).ne

/-- `binder_transaction` allocates the transaction. -/
theorem Sim.exec_send {tp : ProcId} {n : Option NodeId} {irt : Option TxnId} {th : Option ThreadId}
    {oneWay : Bool} (h : Sim L s G) (hi : Inv L s) (hs : Sched L s)
    (hfr : s.frames a = .send x tp n irt th oneWay :: rest) :
    Sim L ((s.allocTxn x tp n irt th oneWay).setFrames a (.build x s.nextTxn irt th :: rest))
      (G.alloc s.nextTxn (irt = none ∧ oneWay = false)) := by
  obtain ⟨s', hs'⟩ : ∃ s', s' = (s.allocTxn x tp n irt th oneWay).setFrames a
    (.build x s.nextTxn irt th :: rest) := ⟨_, rfl⟩
  obtain ⟨G', hG'⟩ : ∃ G', G' = G.alloc s.nextTxn (irt = none ∧ oneWay = false) := ⟨_, rfl⟩
  have hact : .send x tp n irt th oneWay ∈ s.frames a := hfr ▸ List.mem_cons_self
  obtain ⟨hreply, hready⟩ := h.tasks.acts hact
  obtain ⟨hth, -, hn, hx⟩ : ActOk L s.contents s (.send x tp n irt th oneWay) := hi.acts hact
  have hfr' : s'.frames = Function.update s.frames a ([.build x s.nextTxn irt th] ++ rest) := by
    rw [hs']
    rfl
  have htodo : s'.todo = s.todo := by rw [hs']; rfl
  have hthr : s'.thread = s.thread := by rw [hs']; rfl
  have htxn {u : TxnId} (hu : u ≠ s.nextTxn) : s'.txn u = s.txn u := by
    rw [hs']
    simp [TxnState.allocTxn, hu]
  have hcall {u : TxnId} (hu : u ≠ s.nextTxn) : G'.call u ↔ G.call u := by
    rw [hG']
    exact Ghost.alloc_call _ hu
  have hstale {u : TxnId} (hu : u ≠ s.nextTxn) : G'.stale u ↔ G.stale u := by
    rw [hG']
    exact Ghost.alloc_stale _ hu
  have hnet : G'.net = G.net.new s.nextTxn := by rw [hG']; rfl
  have habs : G.net.status s.nextTxn = .absent := by
    by_contra hne
    exact h.ne_nextTxn hi hne rfl
  have hheld {u : TxnId} (hu : G.net.status u = .held) : u ≠ s.nextTxn := h.ne_nextTxn hi (by simp [hu])
  have hcome {z : ThreadId} {u : TxnId} (hu : Coming s' G'.call z u) : Coming s G.call z u := by
    have hu' := (coming_step (P := False) hfr hfr' (.refl _)
      (fun hd => by rwa [hthr] at hd) id (fun hu => .inl (by rwa [htodo] at hu)) (by simp [Act.brings])
      (by simp) hu).resolve_right id
    refine ⟨hu'.1, (hcall (hheld ?_)).mp hu'.2.1, hu'.2.2⟩
    rcases hu'.2.2 with hm | ⟨act, hm, hb⟩ | ⟨a', w, hm⟩
    · exact h.tasks.status_todo hm
    · exact h.tasks.status hm (mem_owns_of_brings hb)
    · exact h.tasks.status hm (mem_owns_of_holds rfl)
  have hafter := h.tasks.after a
  rw [hfr, List.pairwise_cons] at hafter
  have hself : s'.txn s.nextTxn = some
      { fromThread := if irt.isNone && !oneWay then some x else none, fromParent := none
        toProc := some tp, toThread := th, toParent := none, buffer := some s.nextBuf, oneWay } := by
    rw [hs']
    simp [TxnState.allocTxn]
  have hdata : Data L s' G' := by
    have halloc : Data L (s.allocTxn x tp n irt th oneWay) (G.alloc s.nextTxn (irt = none ∧ oneWay = false)) :=
      h.data.alloc h.ok hi.links hth hn fun hirt => (hx hirt).1
    rw [hs', hG']
    exact halloc.same (.of_eq rfl rfl (fun _ => rfl) fun _ => rfl)
  rw [← hs', ← hG']
  obtain ⟨hplaced, hon⟩ := owned_take (t := s.nextTxn) h.tasks htodo hfr'
    (fun ho => by rw [h.tasks.held.mpr ho] at habs; cases habs)
    (.inl (by rw [owned_actor hfr]; rfl))
  refine ⟨by rw [hnet]; exact (h.ok.new habs).mono fun z u hu => hcome hu, by rw [hnet]; exact h.ends,
    hdata, ?_, ?_⟩
  · refine h.tasks.step hfr (by simp) hfr' (.refl _) (fun a' act' z hact' hz => ?_) (fun u => ?_) hplaced
      (fun l u hu hst => ?_) ?_ fun a' act' hact' hne => ?_
    · rw [hthr]
      exact hs.alive hi hact' hz
    · rw [hon, ← h.tasks.held, hnet, Net.new_status]
      rcases eq_or_ne u s.nextTxn with rfl | hne
      · simp
      · simp [hne]
    · rw [htodo] at hu
      exact h.tasks.queued hu ((hstale (hheld (h.tasks.status_todo hu))).mp hst)
    · refine ⟨?_, by simp, by simp, ?_, by simp [Act.lands], ?_⟩
      · intro act' h'
        rw [List.mem_singleton.mp h']
        refine ⟨fun r hr => ?_, ?_, _, hself, rfl, rfl, ?_, fun hirt ho => ?_⟩
        · obtain ⟨hc, hst, y, hy, hyc⟩ := hreply r hr
          have hne := hheld (h.tasks.status hact (t := r) (by subst hr; simp [Act.owns, Act.refs]))
          refine ⟨(hcall hne).mpr hc, fun hst' => hst ((hstale hne).mp hst'), y, hy, fun hd => ?_⟩
          rw [hnet]
          exact hyc (by rwa [hthr] at hd)
        · rw [hG', Ghost.alloc_call_self, Ghost.alloc_stale_self]
        · rw [hG', Ghost.alloc_call_self]
        · refine (hready hirt ho).mono (by rw [hnet]; rfl) (fun u hu => hcome hu) fun y hd => ?_
          exact ⟨by rwa [hthr] at hd, fun hw => by rw [hnet]; exact hw⟩
      · intro z act' u T' _ h' hb
        rw [List.mem_singleton.mp h'] at hb
        cases hb
      · exact List.pairwise_cons.mpr ⟨by simp [Act.reads], hafter.2⟩
    · have hnt : ∀ u ∈ act'.owns, u ≠ s.nextTxn := fun u hu => hheld (h.tasks.status hact' hu)
      refine .net h.tasks hi hs hact' (fun y => by rw [hthr]) (fun u hu => hcall (hnt u hu))
        (fun u hu => hstale (hnt u hu)) (fun u hu U hU => ⟨U, by rwa [htxn (hnt u hu)],
          ⟨rfl, rfl, rfl, rfl, rfl, rfl, .inl rfl⟩⟩) (fun u _ => by rw [hnet]; rfl)
        (fun z th' _ _ hr => hr.mono (by rw [hnet]; rfl) (fun u hu => hcome hu) fun y hd =>
          ⟨by rwa [hthr] at hd, fun hw => by rw [hnet]; exact hw⟩)
        (fun _ _ _ _ _ _ hne => by rw [hnet]; exact hne) fun u hu => h.owned_some hact' hu
  · refine h.idle.calm hfr' (fun act' h' => hfr ▸ List.mem_cons_of_mem _ h') (fun _ => by rw [htodo])
      (fun _ => by rw [hthr]) (fun p z hz => by rw [hs'] at hz; exact hz) (fun _ hd => by rwa [hthr] at hd)
      (fun _ _ hz => by rw [hnet]; exact hz) (fun z u _ hz hcu hu => ⟨?_, by rw [hnet] at hz; exact hz⟩)
      (by simp [Act.idles])
    exact (hcall (hheld (h.tasks.status_todo hu))).mp hcu

/-- The transaction goes on the stack of its sender, and on its way to the thread that waits for it. -/
theorem Sim.exec_buildCall {th : Option ThreadId} (h : Sim L s G) (hi : Inv L s) (hs : Sched L s)
    (hfr : s.frames a = .build x t none th :: rest) (hT : s.txn t = some T) (ho : T.oneWay = false) :
    Sim L (((s.setTxn t (some { T with fromParent := (s.thread x).transactionStack })).setStack x
      (some t)).setFrames a (.procTransaction x t th :: rest)) ((G.withNet (G.net.call x t)).begun t) := by
  obtain ⟨s', hs'⟩ : ∃ s', s' = ((s.setTxn t (some { T with
    fromParent := (s.thread x).transactionStack })).setStack x (some t)).setFrames a
      (.procTransaction x t th :: rest) := ⟨_, rfl⟩
  obtain ⟨G', hG'⟩ : ∃ G', G' = (G.withNet (G.net.call x t)).begun t := ⟨_, rfl⟩
  have hact : .build x t none th ∈ s.frames a := hfr ▸ List.mem_cons_self
  have hto : t ∈ (Act.build x t none th).owns := mem_owns_of_holds rfl
  obtain ⟨-, hst, T₀, hT₀, -, hfrom, hct, hready⟩ := h.tasks.acts hact
  rw [hT] at hT₀
  cases hT₀
  have hc : G.call t := hct.mpr ⟨rfl, ho⟩
  have hready := hready rfl ho
  have hfrom : T.fromThread = some x := by simpa [ho] using hfrom
  obtain ⟨hcaller, hpar⟩ := h.data.stale (hst.mpr hc)
  have ht := h.tasks.status hact hto
  have hx := hs.alive hi hact rfl
  have hnet : G'.net = G.net.call x t := by rw [hG']; rfl
  have hcall : G'.call = G.call := by rw [hG']; rfl
  have hstale {u : TxnId} : G'.stale u ↔ u ≠ t ∧ G.stale u := by rw [hG']; exact .rfl
  have hfr' : s'.frames = Function.update s.frames a ([.procTransaction x t th] ++ rest) := by
    rw [hs']
    rfl
  have htodo : s'.todo = s.todo := by rw [hs']; rfl
  have hthr (z : ThreadId) : (s'.thread z).isDead = (s.thread z).isDead ∧
      (s'.thread z).processTodo = (s.thread z).processTodo := by
    rw [hs']
    rcases eq_or_ne z x with rfl | hne
    · simp
    · simp [hne]
  have hstack {z : ThreadId} (hz : z ≠ x) : G'.net.stack z = G.net.stack z := by
    rw [hnet]
    exact Function.update_of_ne hz ..
  have htxn {u : TxnId} (hu : u ≠ t) : s'.txn u = s.txn u := by
    rw [hs']
    simp [hu]
  have hcome {z : ThreadId} {u : TxnId} (hu : Coming s' G'.call z u) :
      Coming s G.call z u ∨ (th = some z ∧ u = t) := by
    rw [hcall] at hu
    refine coming_step hfr hfr' (.refl _) (fun hd => by rwa [(hthr _).1] at hd) id
      (fun hu => .inl (by rwa [htodo] at hu)) (by simp [Act.brings]) (fun w hw => ?_) hu
    simp only [List.mem_singleton, Act.procTransaction.injEq] at hw
    exact ⟨hw.2.2.symm, hw.2.1⟩
  have halive {z : ThreadId} {u : TxnId} (hu : Coming s' G'.call z u) : (s.thread z).isDead = false := by
    rw [← (hthr z).1]
    exact hu.1
  have hx' : ∀ l, G.net.stack x ≠ .serve t :: l ∧ G.net.stack x ≠ .call t :: l := by
    refine fun l => ⟨fun hl => ?_, hready.top t l⟩
    have := h.ok.serve_iff.mp (show .serve t ∈ G.net.stack x by rw [hl]; simp)
    rw [ht] at this
    cases this
  have hok : Ok (G.net.call x t) (Coming s G.call) := h.ok.call ht hcaller hpar hready.top hready.coming
  have hafter := h.tasks.after a
  rw [hfr, List.pairwise_cons] at hafter
  rw [← hs', ← hG']
  obtain ⟨hplaced, hon⟩ := owned_same h.tasks hfr (fun l => by rw [htodo]) hfr' rfl
  refine ⟨?_, by rw [hnet]; exact h.ends.call (fun c => h.ok.parent_ne_held ht) hx', ?_, ?_, ?_⟩
  · rw [hnet]
    by_cases hth : ∃ y, th = some y ∧ (s.thread y).isDead = false
    · obtain ⟨y, rfl, hy⟩ := hth
      obtain ⟨hxy, hw⟩ := hready.waits y rfl
      refine hok.addDue (x := y) (t := t) ht (.inr ((hw hy).comes hxy.symm hpar)) fun z u hu => ?_
      exact (hcome hu).imp_right fun hze => ⟨(Option.some.inj hze.1).symm, hze.2⟩
    · refine hok.mono fun z u hu => (hcome hu).resolve_right fun hze => hth ⟨z, hze.1, halive hu⟩
  · rw [hs', hG']
    exact (h.data.call ht hT (hst.mpr hc) hx hfrom).same (.of_eq rfl rfl (fun _ => rfl) fun _ => rfl)
  · refine h.tasks.step hfr (by simp) hfr' (.refl _) (fun a' act' z hact' hz => ?_) (fun u => ?_) hplaced
      (fun l u hu hus => h.tasks.queued (by rwa [htodo] at hu) (hstale.mp hus).2) ?_
      fun a' act' hact' hne => ?_
    · rw [(hthr z).1]
      exact hs.alive hi hact' hz
    · rw [hon, ← h.tasks.held, hnet]
      rfl
    · refine ⟨?_, by simp, by simp, ?_, by simp [Act.lands], ?_⟩
      · intro act' h'
        rw [List.mem_singleton.mp h']
        refine ⟨fun hus => (hstale.mp hus).1 rfl, fun _ => ⟨?_, fun y hy hd => ?_⟩⟩
        · rw [hnet]
          exact Function.update_self ..
        · rw [(hthr y).1] at hd
          obtain ⟨hxy, hw⟩ := hready.waits y hy
          obtain ⟨u, r, -, -, hu, -⟩ := hw hd
          rw [hstack hxy.symm, hu]
          simp
      · intro z act' u T' _ h' hb
        rw [List.mem_singleton.mp h'] at hb
        cases hb
      · exact List.pairwise_cons.mpr ⟨by simp [Act.reads], hafter.2⟩
    · have hnt : ∀ u ∈ act'.owns, u ≠ t := fun u hu he => h.tasks.other hfr hto hact' hne (he ▸ hu)
      refine .net h.tasks hi hs hact' (fun y => (hthr y).1) (fun u hu => by rw [hcall])
        (fun u hu => hstale.trans (and_iff_right (hnt u hu))) (fun u hu U hU => ⟨U, by rwa [htxn (hnt u hu)],
          ⟨rfl, rfl, rfl, rfl, rfl, rfl, .inl rfl⟩⟩) (fun u hu => ?_) (fun z th' hfz hcz hr => ?_)
        (fun z u y he hcu hd hy => ?_) fun u hu => h.owned_some hact' hu
      · rw [hnet]
        exact Function.update_of_ne (hnt u hu) ..
      · have hzx : z ≠ x := by
          rintro rfl
          have ha := hi.self hact rfl
          subst ha
          rw [hfr, List.cons.injEq] at hfz
          exact hnt t (hfz.1 ▸ hto) rfl
        refine hr.mono (hstack hzx) (fun u hu => (hcome hu).resolve_right fun hze => ?_)
          fun y hd => ⟨by rwa [(hthr y).1] at hd, fun hw => ?_⟩
        · obtain ⟨v, r, -, -, hv, -⟩ := (hready.waits z hze.1).2 (halive hu)
          exact hr.top v r hv
        · rw [hnet]
          exact hw.call hpar hready.top hzx.symm
      · rcases eq_or_ne y x with rfl | hyx
        · rw [hnet]
          simp [Net.call]
        · rwa [hstack hyx]
  · refine h.idle.calm hfr' (fun act' h' => hfr ▸ List.mem_cons_of_mem _ h') (fun _ => by rw [htodo])
      (fun z => (hthr z).2) (fun p z hz => by rw [hs'] at hz; exact hz)
      (fun z hd => by rwa [(hthr z).1] at hd) (fun z hidle hz => ?_)
      (fun z u _ hz hcu hu => ⟨by rwa [hcall] at hcu, ?_⟩) (by simp [Act.idles])
    · obtain ⟨act', hact', hid⟩ := hidle
      have hzx : z ≠ x := by
        rintro rfl
        have ha := hi.self hact rfl
        subst ha
        rw [hi.alone hact rfl, List.mem_singleton] at hact'
        rw [hact'] at hid
        cases hid
      rwa [hstack hzx]
    · have hzx : z ≠ x := by
        rintro rfl
        rw [hnet] at hz
        simp [Net.call] at hz
      rwa [hstack hzx] at hz

/-- The call has reached user space. -/
theorem Sim.exec_deliveredCall (h : Sim L s G) (hi : Inv L s) (hs : Sched L s)
    (hfr : s.frames a = .delivered x t false :: rest) (hT : s.txn t = some T) (ho : T.oneWay = false) :
    Sim L (((s.setTxn t (some { T with toParent := (s.thread x).transactionStack
                                       toThread := some x })).setStack x (some t)).setFrames a rest)
      (G.withNet (G.net.serve x t)) := by
  obtain ⟨s', hs'⟩ : ∃ s', s' = ((s.setTxn t (some { T with toParent := (s.thread x).transactionStack
                                                            toThread := some x })).setStack x
    (some t)).setFrames a rest := ⟨_, rfl⟩
  have hact : .delivered x t false ∈ s.frames a := hfr ▸ List.mem_cons_self
  have hto : t ∈ (Act.delivered x t false).owns := by simp [Act.owns, Act.refs]
  obtain ⟨hst, hct⟩ := h.tasks.acts hact
  have hc : G.call t := (hct T hT).mpr ⟨rfl, ho⟩
  have ht := h.tasks.status hact hto
  have hx := hs.alive hi hact rfl
  have ha := hi.self hact rfl
  have hcoming : Coming s G.call x t := ⟨hx, hc, .inr (.inl ⟨_, ha ▸ hact, rfl⟩)⟩
  have hfr' : s'.frames = Function.update s.frames a ([] ++ rest) := by rw [hs']; rfl
  have htodo : s'.todo = s.todo := by rw [hs']; rfl
  have hthr (z : ThreadId) : (s'.thread z).isDead = (s.thread z).isDead ∧
      (s'.thread z).processTodo = (s.thread z).processTodo := by
    rw [hs']
    rcases eq_or_ne z x with rfl | hne
    · simp
    · simp [hne]
  have hstack {z : ThreadId} (hz : z ≠ x) : (G.net.serve x t).stack z = G.net.stack z :=
    Function.update_of_ne hz ..
  have htxn {u : TxnId} (hu : u ≠ t) : s'.txn u = s.txn u := by
    rw [hs']
    simp [hu]
  obtain ⟨hplaced, hon⟩ := owned_free (t := t) h.tasks hfr htodo hfr' rfl
  have hcome {z : ThreadId} {u : TxnId} (hu : Coming s' G.call z u) : Coming s G.call z u ∧ u ≠ t := by
    refine ⟨(coming_step (P := False) hfr hfr' (.refl _) (fun hd => by rwa [(hthr _).1] at hd) id
      (fun hu => .inl (by rwa [htodo] at hu)) (by simp) (by simp) hu).resolve_right id, ?_⟩
    have hou : OnList s'.owned u := by
      rcases hu.2.2 with hm | ⟨act', hm, hb⟩ | ⟨a', w, hm⟩
      · exact ⟨_, mem_owned_todo hm⟩
      · exact ⟨_, mem_owned hm (mem_owns_of_brings hb)⟩
      · exact ⟨_, mem_owned hm (mem_owns_of_holds rfl)⟩
    exact ((hon u).mp hou).2
  have hrest : s.frames (.thread x) = [.delivered x t false] := ha ▸ h.tasks.lands hact rfl
  rw [← hs']
  refine ⟨h.ok.serve hcoming fun z u hu => hcome hu, h.ends, ?_, ?_, ?_⟩
  · rw [hs']
    exact (h.data.serve h.ok ht hT hst hx hc (h.tasks.brought (ha ▸ hact) rfl hT)).same
      (.of_eq rfl rfl (fun _ => rfl) fun _ => rfl)
  · refine h.tasks.step hfr (by simp) hfr' (.refl _) (fun a' act' z hact' hz => ?_) (fun u => ?_) hplaced
      (fun l u hu => h.tasks.queued (by rwa [htodo] at hu)) (.nil h.tasks hfr) fun a' act' hact' hne => ?_
    · rw [(hthr z).1]
      exact hs.alive hi hact' hz
    · rw [hon, ← h.tasks.held, Ghost.withNet_net, Net.serve_status]
      rcases eq_or_ne u t with rfl | hne
      · simp
      · simp [hne]
    · have hnt : ∀ u ∈ act'.owns, u ≠ t := fun u hu he => h.tasks.other hfr hto hact' hne (he ▸ hu)
      refine .net h.tasks hi hs hact' (fun y => (hthr y).1) (fun _ _ => .rfl) (fun _ _ => .rfl)
        (fun u hu U hU => ⟨U, by rwa [htxn (hnt u hu)], ⟨rfl, rfl, rfl, rfl, rfl, rfl, .inl rfl⟩⟩)
        (fun _ _ => rfl) (fun z th' hfz hcz hr => ?_) (fun z u y _ _ _ hy => ?_)
        fun u hu => h.owned_some hact' hu
      · have hzx : z ≠ x := by
          rintro rfl
          rw [hrest, List.cons.injEq] at hfz
          exact hnt t (hfz.1 ▸ hto) rfl
        refine hr.mono (hstack hzx) (fun u hu => (hcome hu).1) fun y hd =>
          ⟨by rwa [(hthr y).1] at hd, fun hw => hw.mono ?_ (hstack hzx) fun _ _ _ _ => id⟩
        -- nothing comes to a thread that waits for `z`
        refine hstack ?_
        rintro rfl
        exact h.ok.waits_not_due hw hcoming
      · rcases eq_or_ne y x with rfl | hyx
        · simp [Net.serve]
        · rwa [Ghost.withNet_net, hstack hyx]
  · refine h.idle.calm hfr' (fun act' h' => hfr ▸ List.mem_cons_of_mem _ h') (fun _ => by rw [htodo])
      (fun z => (hthr z).2) (fun p z hz => by rw [hs'] at hz; exact hz)
      (fun z hd => by rwa [(hthr z).1] at hd) (fun z hidle hz => ?_)
      (fun z u _ hz hcu hu => ⟨hcu, ?_⟩) (by simp)
    · obtain ⟨act', hact', hid⟩ := hidle
      have hzx : z ≠ x := by
        rintro rfl
        rw [hrest, List.mem_singleton] at hact'
        rw [hact'] at hid
        cases hid
      rwa [Ghost.withNet_net, hstack hzx]
    · have hzx : z ≠ x := by
        rintro rfl
        simp [Net.serve] at hz
      rwa [Ghost.withNet_net, hstack hzx] at hz

/-! ## All steps -/

/-- The first transaction of one list goes to the end of another one. -/
theorem owned_move {q : WorkList} (h : Tasks L s G) (hfr : s.frames a = act :: rest)
    (hl : s.todo l = .transaction t :: ws) (hne : q ≠ l) (htodo : s'.todo =
      Function.update (Function.update s.todo l ws) q (s.todo q ++ [Work.transaction t]))
    (hfr' : s'.frames = Function.update s.frames a (m ++ rest))
    (hown : m.flatMap Act.owns = act.owns) :
    Placed s'.owned ∧ ∀ u, OnList s'.owned u ↔ OnList s.owned u := by
  have hlist : s.owned (.list l) = t :: ws.filterMap Work.txn? := by
    simp [TxnState.owned, hl, Work.txn?]
  have ht : t ∈ s.owned (.list l) := by rw [hlist]; exact List.mem_cons_self
  have hn := h.placed.nodup (.list l)
  rw [hlist, List.nodup_cons] at hn
  have htq : t ∉ s.owned (.list q) := fun hm => by
    have := h.placed.unique hm ht
    exact hne (Place.list.inj this)
  have he : s'.owned = Function.update (Function.update s.owned (.list l) (ws.filterMap Work.txn?))
      (.list q) (s.owned (.list q) ++ [t]) := by
    funext p
    rcases p with l' | a'
    · rcases eq_or_ne l' q with rfl | hq
      · simp [TxnState.owned, htodo, Work.txn?]
      · rcases eq_or_ne l' l with rfl | hl'
        · simp [TxnState.owned, htodo, hq]
        · simp [TxnState.owned, htodo, hq, hl']
    · rcases eq_or_ne a' a with rfl | ha
      · simp [TxnState.owned, hfr', hfr, hown]
      · simp [TxnState.owned, hfr', ha]
  rw [he]
  refine ⟨h.placed.move ht (by rw [hlist]; exact List.sublist_cons_self _ _) hn.1 (by simpa using hne)
    (List.nodup_append.mpr ⟨h.placed.nodup _, List.nodup_singleton _, ?_⟩) (by simp [or_comm]), ?_⟩
  · rintro u hu v hv rfl
    rw [List.mem_singleton] at hv
    exact htq (hv ▸ hu)
  · intro u
    rw [onList_update]
    constructor
    · rintro (hu | ⟨p, hp, hu⟩)
      · rcases List.mem_append.mp hu with hu | hu
        · exact ⟨_, hu⟩
        · exact ⟨_, List.mem_singleton.mp hu ▸ ht⟩
      · rcases eq_or_ne p (.list l) with rfl | hpl
        · rw [Function.update_self] at hu
          exact ⟨_, by rw [hlist]; exact List.mem_cons_of_mem _ hu⟩
        · exact ⟨p, by rwa [Function.update_of_ne hpl] at hu⟩
    · rintro ⟨p, hu⟩
      rcases eq_or_ne p (.list q) with rfl | hpq
      · exact .inl (List.mem_append_left _ hu)
      · rcases eq_or_ne p (.list l) with rfl | hpl
        · rw [hlist, List.mem_cons] at hu
          rcases hu with rfl | hu
          · exact .inl (by simp)
          · exact .inr ⟨_, hpq, by rwa [Function.update_self]⟩
        · exact .inr ⟨p, hpq, by rwa [Function.update_of_ne hpl]⟩

/-- The next transaction to a node goes to the process, which wakes a thread. -/
theorem Sim.exec_asyncNext {n : NodeId} {w : Work} (h : Sim L s G) (hi : Inv L s) (hs : Sched L s)
    (hfr : s.frames a = .freeBufAsync b :: rest) (htodo : s.todo (.node n) = w :: ws) :
    Sim L ((((s.setTodo (.node n) ws).enqueue (.proc B.proc) w).selectThread B.proc).2.setFrames a
      (.freeBufRelease b :: rest)) G := by
  obtain ⟨t, rfl⟩ := hs.asyncTodo (n := n) (w := w) (by rw [htodo]; exact List.mem_cons_self)
  obtain ⟨s₁, hs₁⟩ : ∃ s₁, s₁ = (s.setTodo (.node n) ws).enqueue (.proc B.proc) (.transaction t) := ⟨_, rfl⟩
  obtain ⟨hst, htodo₁, -, -⟩ := selectThread_spec (s := s₁) B.proc
  obtain ⟨s', hs'⟩ : ∃ s', s' = (s₁.selectThread B.proc).2.setFrames a (.freeBufRelease b :: rest) :=
    ⟨_, rfl⟩
  have hthr : s'.thread = s.thread := by
    rw [hs', hs₁, TxnState.selectThread]
    split <;> rfl
  have hfr' : s'.frames = Function.update s.frames a ([.freeBufRelease b] ++ rest) := by
    rw [hs', TxnState.setFrames_frames, hst.frames, hs₁]
    rfl
  have htodo' : s'.todo = Function.update (Function.update s.todo (.node n) ws) (.proc B.proc)
      (s.todo (.proc B.proc) ++ [Work.transaction t]) := by
    rw [hs', TxnState.setFrames_todo, htodo₁, hs₁]
    simp
  have hthread (z : ThreadId) : s'.todo (.thread z) = s.todo (.thread z) := by
    rw [htodo']
    simp
  have hsame : SameNet s s' := by
    rw [hs']
    refine SameNet.setFrames (.of_eq (hst.txn.trans ?_) (hst.buf.trans ?_) (fun z => (hst.stack z).trans ?_)
      fun z => (hst.threadDead z).trans ?_) <;> rw [hs₁] <;> rfl
  have hcome {z : ThreadId} {u : TxnId} (hu : Coming s' G.call z u) : Coming s G.call z u :=
    (coming_step (P := False) hfr hfr' (.refl _) (fun hd => by rwa [hthr] at hd) id
      (fun hu => .inl (by rwa [hthread] at hu)) (by simp [Act.brings]) (by simp) hu).resolve_right id
  have hsub : ∀ l u, .transaction u ∈ s'.todo l → ∃ l', .transaction u ∈ s.todo l' := by
    intro l u hu
    rw [htodo'] at hu
    rcases eq_or_ne l (.proc B.proc) with rfl | hp
    · rw [Function.update_self, List.mem_append, List.mem_singleton] at hu
      rcases hu with hu | hu
      · exact ⟨_, hu⟩
      · exact ⟨.node n, by rw [htodo, hu]; exact List.mem_cons_self⟩
    · rw [Function.update_of_ne hp] at hu
      rcases eq_or_ne l (.node n) with rfl | hn
      · rw [Function.update_self] at hu
        exact ⟨.node n, by rw [htodo]; exact List.mem_cons_of_mem _ hu⟩
      · exact ⟨l, by rwa [Function.update_of_ne hn] at hu⟩
  have hafter := h.tasks.after a
  rw [hfr, List.pairwise_cons] at hafter
  rw [← hs₁, ← hs']
  refine h.turn hi hs hfr (by simp) hfr' (.refl _) hsame rfl rfl (fun _ _ => .rfl) (h.data.same hsame)
    (h.ok.mono fun z u hu => hcome hu) (fun z u _ hu => hcome hu)
    (owned_move h.tasks hfr htodo (by simp) htodo' hfr' rfl) (fun l u hu => ?_) ?_ ?_
  · obtain ⟨l', hu⟩ := hsub l u hu
    exact h.tasks.queued hu
  · refine ⟨by simp [ActSim], by simp, by simp, ?_, by simp [Act.lands],
      List.pairwise_cons.mpr ⟨by simp [Act.reads], hafter.2⟩⟩
    intro z act' u T' _ h' hb
    rw [List.mem_singleton.mp h'] at hb
    cases hb
  · refine h.idle.calm hfr' (fun act' h' => hfr ▸ List.mem_cons_of_mem _ h') hthread
      (fun z => by rw [hthr]) (fun p z hz => ?_) (fun z hd => by rwa [hthr] at hd) (fun _ _ => id)
      (fun _ _ _ hz hcu _ => ⟨hcu, hz⟩) (by simp [Act.idles])
    rw [hs', TxnState.setFrames_waitingThreads] at hz
    have := hst.waiting p z hz
    rwa [hs₁] at this

theorem Sim.exec_unwind {irt : Option TxnId} (h : Sim L s G) (hi : Inv L s) (hs : Sched L s)
    (hfr : s.frames a = .unwind t irt :: rest) :
    Sim L (((s.setBuf b none).setTxn t none).setFrames a (TxnState.onError irt ++ rest))
      (G.withNet (G.net.finish t)) := by
  have hact : .unwind t irt ∈ s.frames a := hfr ▸ List.mem_cons_self
  have hsim : ∀ r, irt = some r → G.call r ∧ ¬ G.stale r := h.tasks.acts hact
  have hst : G.stale t := by
    refine (h.tasks.unwinds hact).resolve_right ?_
    rintro ⟨x, r, he⟩
    rw [hfr] at he
    cases he
  refine h.free hi hs hfr (by simp) (m := TxnState.onError irt) ?_ rfl (by simp) hst ?_ ?_ rfl rfl rfl rfl
  · cases irt <;> rfl
  · cases irt with
    | none => exact .inl rfl
    | some r => exact .inr ⟨r, rfl, hsim r rfl⟩
  · refine ⟨fun _ => .inl rfl, fun {b' B'} hB' => ?_, fun _ => rfl, fun _ => rfl⟩
    rcases eq_or_ne b' b with rfl | hne
    · simp at hB'
    · exact ⟨B', by simpa [hne] using hB', rfl, rfl⟩

/-- A transaction is freed, and its buffer forgets it. -/
theorem Sim.exec_freeTransaction (h : Sim L s G) (hi : Inv L s) (hs : Sched L s)
    (hfr : s.frames a = .freeTransaction t :: rest) (hs₁ : s₁ = s ∨ s.unlink b = some s₁) :
    Sim L ((s₁.setTxn t none).setFrames a rest) (G.withNet (G.net.finish t)) := by
  have hst : G.stale t := h.tasks.acts (hfr ▸ List.mem_cons_self : .freeTransaction t ∈ s.frames a)
  obtain ⟨hnet, hfrm, htodo, hthr, hwait⟩ : SameNet s s₁ ∧ s₁.frames = s.frames ∧ s₁.todo = s.todo ∧
      s₁.thread = s.thread ∧ s₁.waitingThreads = s.waitingThreads := by
    rcases hs₁ with rfl | hu
    · exact ⟨.of_eq rfl rfl (fun _ => rfl) fun _ => rfl, rfl, rfl, rfl, rfl⟩
    · obtain ⟨B, hB, hu⟩ := Option.bind_eq_some_iff.mp hu
      cases hu
      exact ⟨.setBuf hB (by rintro _ ⟨⟩; exact ⟨rfl, rfl⟩), rfl, rfl, rfl, rfl⟩
  have htxn : s₁.txn = s.txn := by
    rcases hs₁ with rfl | hu
    · rfl
    · obtain ⟨B, -, hu⟩ := Option.bind_eq_some_iff.mp hu
      cases hu
      rfl
  refine h.free hi hs hfr (by simp) (m := []) rfl rfl (by simp) hst (.inl rfl) ?_
    (by rw [TxnState.setFrames_frames, TxnState.setTxn_frames, hfrm]; rfl) htodo hthr hwait
  exact ⟨fun u => .inl (by simp [htxn]), hnet.buf, hnet.stack, hnet.dead⟩

/-- What is no call has neither a caller nor a parent. -/
theorem Sim.toFree_plain (h : Sim L s G) (hi : Inv L s) (hs : Sched L s) (hfr : s.frames a = act :: rest)
    (hact : ∀ x t, act ≠ .popTransaction x t) (howns : act.owns = [t]) (hst : ¬ G.stale t)
    (hT : s.txn t = some T) (hc : ¬ G.call t) :
    Sim L (s.setFrames a (.freeTransaction t :: rest)) (G.over t) :=
  h.toFree hi hs hfr hact howns hst hT (h.data.plain hT hc)

/-- Every step of a task keeps the chains. -/
theorem Sim.execAct (h : Sim L s G) (hi : Inv L s) (hs : Sched L s) (hfr : s.frames a = act :: rest)
    (hstep : ActStep L s a rest env act s') : ∃ G', Sim L s' G' := by
  have hact : act ∈ s.frames a := hfr ▸ List.mem_cons_self
  have hsetBuf {b : BufId} {B B' : Buffer} (hB : s.buf b = some B) (he : B'.proc = B.proc ∧
      B'.targetNode = B.targetNode) : SameNet s (s.setBuf b (some B')) :=
    .setBuf hB (by rintro _ ⟨⟩; exact he)
  cases hstep with
  | checkFail => exact ⟨G, h.setFrames hi hs hfr (by simp) [] (.done rfl)⟩
  | checkOneWay hne =>
    exact ⟨G, h.setFrames hi hs hfr (by simp) [_] (.one ⟨by rintro r ⟨⟩, by simp⟩ rfl (by simp) (by simp)
      (by simp) rfl rfl rfl rfl)⟩
  | checkFirst hne hhead hst => exact ⟨G, h.exec_checkFirst hi hs hfr hhead hst⟩
  | checkNested hne hhead hst hT hto hf => exact ⟨G, h.exec_checkNested hi hs hfr hne hst hT hto hf⟩
  | replyDead hT hn =>
    have hsim := h.tasks.acts hact
    exact ⟨G, h.setFrames hi hs hfr (by simp) [_] (.one hsim rfl (by simp) (by simp) (by simp) rfl rfl rfl
      rfl)⟩
  | replyBad hT hy hne => exact absurd (h.exec_replyTarget hi hs hfr hT hy).1 hne
  | replyTo hT hy hst => exact ⟨G, (h.exec_replyTarget hi hs hfr hT hy).2⟩
  | @sendFail x tp n irt th oneWay =>
    refine ⟨G, h.setFrames hi hs hfr (by simp) _ (.onError (fun r hr => ?_) ?_)⟩
    · obtain ⟨hc, hst, -⟩ := (h.tasks.acts hact).1 r hr
      exact ⟨hc, hst⟩
    · simp [Act.owns, Act.holds, Act.refs]
  | sendAlloc => exact ⟨_, h.exec_send hi hs hfr⟩
  | buildFail => exact ⟨_, h.exec_buildFail hi hs hfr⟩
  | buildReply hd hpop =>
    obtain ⟨s₁, G', he, hs'⟩ := h.exec_buildReply hi hs hfr hd
    rw [hpop] at he
    cases he
    exact ⟨G', hs'⟩
  | buildOneWay hT ho => exact ⟨G, h.exec_buildOneWay hi hs hfr hT ho⟩
  | buildCall hT ho => exact ⟨_, h.exec_buildCall hi hs hfr hT ho⟩
  | accepted hT hb hB hn he => exact ⟨G, h.exec_accepted hi hs hfr hT hb hB hn he⟩
  | rejected hT hb hB hn he => exact h.exec_rejected hi hs hfr hT hb hB hn he
  | pop hpop =>
    obtain ⟨s₁, G', he, hs'⟩ := h.exec_pop hi hs hfr
    rw [hpop] at he
    cases he
    exact ⟨G', hs'⟩
  | unwind hT hb => exact ⟨_, h.exec_unwind hi hs hfr⟩
  | failedReply hT hy hpop =>
    obtain ⟨s₁, G', he, hs'⟩ := h.exec_failedReply env hi hs hfr hT hy
    rw [hpop] at he
    cases he
    exact ⟨G', hs'⟩
  | failedParent hT hn => exact h.exec_failedParent hi hs hfr hT hn
  | freeLinked hT hp hb hu => exact ⟨_, h.exec_freeTransaction hi hs hfr (.inr hu)⟩
  | freeUnlinked hT hno => exact ⟨_, h.exec_freeTransaction (b := 0) hi hs hfr (.inl rfl)⟩
  | cleanupCall hT hb hB hn ho => exact ⟨G, h.exec_cleanupCall hi hs hfr hT hb hB hn ho⟩
  | cleanupOther hT hb hB hno =>
    refine ⟨_, h.toFree_plain hi hs hfr (by simp) rfl (h.tasks.acts hact) hT fun hc => ?_⟩
    obtain ⟨hn, ho⟩ := (h.data.kind hT hb hB).2.mp hc
    rcases hno with he | he
    · rw [he] at hn
      cases hn
    · rw [he] at ho
      cases ho
  | freeBuf hB hn =>
    exact ⟨G, h.exec_other hi hs hfr (by simp) rfl (.of_eq rfl rfl (fun _ => rfl) fun _ => rfl) (m := [_])
      rfl rfl rfl rfl (.inr ⟨_, .inl rfl⟩)⟩
  | freeBufLinked hB ht hT => exact ⟨G, h.exec_freeBufLinked hi hs hfr hB hT⟩
  | asyncLast hB ha hn hl =>
    exact ⟨G, h.exec_other hi hs hfr (by simp) rfl (.of_eq rfl rfl (fun _ => rfl) fun _ => rfl) (m := [_])
      rfl rfl rfl rfl (.inr ⟨_, .inr rfl⟩)⟩
  | asyncNext hB ha hn hf hl => exact ⟨G, h.exec_asyncNext hi hs hfr hl⟩
  | asyncNot hB hno =>
    exact ⟨G, h.exec_other hi hs hfr (by simp) rfl (.of_eq rfl rfl (fun _ => rfl) fun _ => rfl) (m := [_])
      rfl rfl rfl rfl (.inr ⟨_, .inr rfl⟩)⟩
  | freeBufRelease hB hn =>
    exact ⟨G, h.exec_other hi hs hfr (by simp) rfl (SameNet.setBuf hB (by simp)).setFrames (m := []) rfl
      rfl rfl rfl (.inl rfl)⟩
  | readRetry hp => exact ⟨G, h.exec_readRetry hi hs hfr hp⟩
  | woken => exact ⟨G, h.exec_woken hi hs hfr⟩
  | noWait => exact ⟨G, h.setFrames hi hs hfr (by simp) [] (.done rfl)⟩
  | waitProc hp => exact ⟨G, h.exec_waitProc hi hs hfr hp⟩
  | waitThread hp => exact ⟨G, h.exec_waitThread hi hs hfr⟩
  | wake hg => exact ⟨G, h.exec_wake hi hs hfr hg⟩
  | readNothing hg => exact ⟨G, h.exec_readNothing hi hs hfr hg⟩
  | @readOther x procWork l type ws g hl htodo hg =>
    refine ⟨G, h.exec_popOther hi hs hfr (by simp) htodo (m := g) rfl rfl ?_ rfl (fun z => ?_) ?_ rfl
      trivial (by simp)⟩
    · refine .of_eq rfl rfl (fun z => ?_) fun z => ?_ <;> rcases eq_or_ne z x with rfl | hne <;> simp [*]
    · rcases eq_or_ne z x with rfl | hne
      · exact .inr (by simp)
      · exact .inl (by simp [hne])
    · rcases hg with rfl | rfl
      · exact .inr rfl
      · exact .inl rfl
  | readTransaction hl htodo => exact ⟨G, h.exec_readTransaction hi hs hfr hl htodo⟩
  | deliver => exact ⟨G, h.exec_deliver hi hs hfr⟩
  | deliverFail hT hb hB =>
    refine ⟨G, h.exec_deliverFail hi hs hfr hB ?_⟩
    split
    · exact .inl rfl
    · exact .inr rfl
  | copy hT hb hB => exact ⟨G, h.exec_copy hi hs hfr hT hb hB⟩
  | copyFail hok => exact ⟨G, h.exec_copyFail hi hs hfr⟩
  | deliveredCall hT ho => exact ⟨_, h.exec_deliveredCall hi hs hfr hT ho⟩
  | deliveredOther hT hno =>
    obtain ⟨hst, hct⟩ := h.tasks.acts hact
    refine ⟨_, h.toFree_plain hi hs hfr (by simp) rfl hst hT fun hc => ?_⟩
    obtain ⟨hr, ho⟩ := (hct _ hT).mp hc
    rcases hno with he | he
    · rw [he] at hr
      cases hr
    · rw [he] at ho
      cases ho
  | releaseDone hl => exact ⟨G, h.setFrames hi hs hfr (by simp) [] (.done rfl)⟩
  | releaseTransaction hl => exact ⟨G, h.exec_releaseTransaction hi hs hfr hl⟩
  | @releaseOther l type ws hl =>
    exact ⟨G, h.exec_popOther hi hs hfr (by simp) hl (m := [.releaseWork l]) rfl rfl
      (.of_eq rfl rfl (fun _ => rfl) fun _ => rfl) rfl (fun _ => .inl rfl) (.inr rfl) rfl trivial (by simp)⟩
  | nodeRelease =>
    exact ⟨G, h.exec_other hi hs hfr (by simp) rfl (.of_eq rfl rfl (fun _ => rfl) fun _ => rfl) (m := [])
      rfl rfl rfl rfl (.inl rfl)⟩

end Redroid.Binder.Txn
