import Redroid.Binder.TxnNet

/-!
# A step of a task, and the chains of calls

* `ActSim.mono`: what the other tasks know stays, if the transactions that they work on do.
* `Tasks.step`, `Idle.step`: the rules for a step of a task; `owned_eq`, `Placed`-lemmas: where the
  transactions are after it.
* `Sim.turn`, `Sim.control`: the rules for `Sim`. With them the critical sections that move no
  transaction between the chains keep it (`Sim.exec_checkFirst` to `Sim.exec_other`).
-/

namespace Redroid.Binder.Txn

open CallChain Relation

variable {L : Layout} {s s' s₁ : TxnState} {G G' : Ghost} {t u r : TxnId} {b : BufId} {x y z : ThreadId}
  {T : Transaction} {B : Buffer} {a a' : Actor} {act act' : Act} {rest rest' m acts : List Act}
  {env : Env} {l : WorkList} {ws : List Work}

theorem mem_owns_of_holds (h : act.holds = some t) : t ∈ act.owns := by
  simp [Act.owns, h]

theorem mem_owns_of_refs (h : t ∈ act.refs) : t ∈ act.owns := by
  simp [Act.owns, h]

theorem mem_owns_of_brings (h : act.brings = some t) : t ∈ act.owns := by
  cases act <;> simp [Act.brings] at h <;> simp [Act.owns, Act.holds, Act.refs, h]

theorem mem_owned (hact : act ∈ s.frames a) (ht : t ∈ act.owns) : t ∈ s.owned (.actor a) :=
  List.mem_flatMap.mpr ⟨act, hact, ht⟩

theorem mem_owned_todo (ht : .transaction t ∈ s.todo l) : t ∈ s.owned (.list l) :=
  List.mem_filterMap.mpr ⟨_, ht, rfl⟩

theorem Tasks.status (h : Tasks L s G) (hact : act ∈ s.frames a) (ht : t ∈ act.owns) :
    G.net.status t = .held := h.held.mpr ⟨_, mem_owned hact ht⟩

theorem Tasks.status_todo (h : Tasks L s G) (ht : .transaction t ∈ s.todo l) :
    G.net.status t = .held := h.held.mpr ⟨_, mem_owned_todo ht⟩

/-- Another task works on other transactions. -/
theorem Tasks.other (h : Tasks L s G) (hfr : s.frames a = act :: rest) (ht : t ∈ act.owns)
    (hact' : act' ∈ s.frames a') (hne : a' = a → act' ∈ rest) : t ∉ act'.owns := by
  intro ht'
  have hact : act ∈ s.frames a := hfr ▸ List.mem_cons_self
  have haa : Place.actor a' = .actor a := h.placed.unique (mem_owned hact' ht') (mem_owned hact ht)
  cases haa
  have hn := h.placed.nodup (.actor a)
  rw [TxnState.owned, hfr, List.flatMap_cons, List.nodup_append] at hn
  exact hn.2.2 t ht t (List.mem_flatMap.mpr ⟨act', hne rfl, ht'⟩) rfl

/-- A transaction on a work list is with no task. -/
theorem Tasks.not_todo (h : Tasks L s G) (hact : act ∈ s.frames a) (ht : t ∈ act.owns) :
    .transaction t ∉ s.todo l := fun ht' => by
  have := h.placed.unique (mem_owned hact ht) (mem_owned_todo ht')
  cases this

theorem Ready.mono {th : Option ThreadId} (h : Ready s G x th) (hstack : G'.net.stack x = G.net.stack x)
    (hcome : ∀ u, Coming s' G'.call x u → Coming s G.call x u)
    (hwaits : ∀ y, (s'.thread y).isDead = false → (s.thread y).isDead = false ∧
      (G.net.Waits y x → G'.net.Waits y x)) : Ready s' G' x th :=
  ⟨fun c l hl => h.top c l (by rwa [hstack] at hl), fun u hu => h.coming u (hcome u hu),
    fun y hy => ⟨(h.waits y hy).1, fun hd => (hwaits y hd).2 ((h.waits y hy).2 (hwaits y hd).1)⟩⟩

/-- What a task knows stays, if the transactions that it works on do. -/
theorem ActSim.mono (h : ActSim s G act)
    (hdead : ∀ y, (s'.thread y).isDead = false → (s.thread y).isDead = false)
    (hself : ∀ x, act.self = some x → (s'.thread x).isDead = false)
    (hcall : ∀ u ∈ act.owns, (G'.call u ↔ G.call u) ∧ (G'.stale u ↔ G.stale u))
    (hone : ∀ u ∈ act.owns, ∀ T', s'.txn u = some T' → ∃ T, s.txn u = some T ∧ T'.oneWay = T.oneWay)
    (hbuild : ∀ x u irt th T, act = .build x u irt th → s.txn u = some T → ∃ T', s'.txn u = some T' ∧
      T'.fromThread = T.fromThread ∧ T'.fromParent = T.fromParent ∧ T'.oneWay = T.oneWay)
    (hcaller : ∀ r ∈ act.owns, ∀ y, (s'.thread y).isDead = false → G.net.caller r = some y →
      G'.net.caller r = some y)
    (hready : ∀ x th, act.calls = true → act.self = some x → Ready s G x th → Ready s' G' x th)
    (hne : ∀ x t y, act = .procTransaction x t (some y) → G.call t → (s'.thread y).isDead = false →
      G.net.stack y ≠ [] → G'.net.stack y ≠ []) : ActSim s' G' act := by
  have hreply {irt : Option TxnId} {th : Option ThreadId} (ho : ∀ r, irt = some r → r ∈ act.owns)
      (hr : ReplyOk s G irt th) : ReplyOk s' G' irt th := by
    intro r hirt
    obtain ⟨hc, hs, y, hy, hyc⟩ := hr r hirt
    have hr := hcall r (ho r hirt)
    exact ⟨hr.1.mpr hc, fun hs' => hs (hr.2.mp hs'), y, hy, fun hd =>
      hcaller r (ho r hirt) y hd (hyc (hdead y hd))⟩
  cases act with
  | replyTarget x t oneWay =>
    have := hcall t (by simp [Act.owns, Act.refs])
    exact ⟨this.1.mpr h.1, fun hs => h.2 (this.2.mp hs)⟩
  | sendFailedReply t =>
    have := hcall t (by simp [Act.owns, Act.refs])
    exact ⟨this.1.mpr h.1, fun hs => h.2 (this.2.mp hs)⟩
  | send x tp n irt th oneWay =>
    exact ⟨hreply (by rintro r rfl; simp [Act.owns, Act.refs]) h.1, fun hi ho =>
      hready x th rfl rfl (h.2 hi ho)⟩
  | build x t irt th =>
    obtain ⟨hr, hst, T, hT, hp, hf, hc, hrd⟩ := h
    obtain ⟨T', hT', e₁, e₂, e₃⟩ := hbuild x t irt th T rfl hT
    have := hcall t (by simp [Act.owns, Act.holds])
    refine ⟨hreply (by rintro r rfl; simp [Act.owns, Act.refs]) hr,
      this.2.trans (hst.trans this.1.symm), T', hT',
      e₂.trans hp, by rw [e₁, e₃]; exact hf, by rw [e₃]; exact this.1.trans hc, fun hi ho =>
        hready x th rfl rfl (hrd hi (e₃ ▸ ho))⟩
  | procTransaction x t th =>
    have ht : t ∈ (Act.procTransaction x t th).owns := by simp [Act.owns, Act.holds]
    have := hcall t ht
    refine ⟨fun hs => h.1 (this.2.mp hs), fun hc => ?_⟩
    obtain ⟨hx, hy⟩ := h.2 (this.1.mp hc)
    refine ⟨hcaller t ht x (hself x rfl) hx, fun y hth hd => ?_⟩
    subst hth
    exact hne x t y rfl (this.1.mp hc) hd (hy y rfl (hdead y hd))
  | unwind t irt =>
    intro r hirt
    have := hcall r (by subst hirt; simp [Act.owns, Act.refs])
    exact ⟨this.1.mpr (h r hirt).1, fun hs => (h r hirt).2 (this.2.mp hs)⟩
  | freeTransaction t => exact (hcall t (by simp [Act.owns, Act.refs])).2.mpr h
  | cleanupTransaction t =>
    exact fun hs => h ((hcall t (by simp [Act.owns, Act.refs])).2.mp hs)
  | deliver x t => exact fun hs => h ((hcall t (by simp [Act.owns, Act.holds])).2.mp hs)
  | copy x t => exact fun hs => h ((hcall t (by simp [Act.owns, Act.holds])).2.mp hs)
  | delivered x t isReply =>
    have ht : t ∈ (Act.delivered x t isReply).owns := by simp [Act.owns, Act.refs]
    refine ⟨fun hs => h.1 ((hcall t ht).2.mp hs), fun T' hT' => ?_⟩
    obtain ⟨T, hT, ho⟩ := hone t ht T' hT'
    rw [ho]
    exact (hcall t ht).1.trans (h.2 T hT)
  | _ => trivial

/-! ## The rules -/

/-- What is on its way to a thread after a step of the task `a`. -/
theorem coming_step {call call' : TxnId → Prop} {P : Prop} (hfr : s.frames a = act :: rest)
    (hfr' : s'.frames = Function.update s.frames a (m ++ rest')) (hrest : rest'.Sublist rest)
    (hdead : (s'.thread x).isDead = false → (s.thread x).isDead = false) (hcall : call' u → call u)
    (htodo : .transaction u ∈ s'.todo (.thread x) → .transaction u ∈ s.todo (.thread x) ∨ P)
    (hb : ∀ act' ∈ m, act'.brings = some u → a = .thread x → act.brings = some u ∨ P)
    (hp : ∀ z, .procTransaction z u (some x) ∈ m → P) (h : Coming s' call' x u) :
    Coming s call x u ∨ P := by
  obtain ⟨hd, hc, h⟩ := h
  have hmem {a' : Actor} {act' : Act} (hact' : act' ∈ s'.frames a') :
      act' ∈ s.frames a' ∨ (a' = a ∧ act' ∈ m) := by
    rw [hfr'] at hact'
    rcases eq_or_ne a' a with rfl | hne
    · rw [Function.update_self, List.mem_append] at hact'
      rcases hact' with hact' | hact'
      · exact .inr ⟨rfl, hact'⟩
      · exact .inl (hfr ▸ List.mem_cons_of_mem _ (hrest.subset hact'))
    · rw [Function.update_of_ne hne] at hact'
      exact .inl hact'
  have hold (h : _) : Coming s call x u := ⟨hdead hd, hcall hc, h⟩
  rcases h with h | ⟨act', hact', hbr⟩ | ⟨a', z, hact'⟩
  · exact (htodo h).imp_left fun h => hold (.inl h)
  · rcases hmem hact' with hact' | ⟨rfl, hact'⟩
    · exact .inl (hold (.inr (.inl ⟨act', hact', hbr⟩)))
    · exact (hb act' hact' hbr rfl).imp_left fun hbr' =>
        hold (.inr (.inl ⟨act, hfr ▸ List.mem_cons_self, hbr'⟩))
  · rcases hmem hact' with hact' | ⟨rfl, hact'⟩
    · exact .inl (hold (.inr (.inr ⟨a', z, hact'⟩)))
    · exact .inr (hp z hact')

theorem coming_setFrames {call : TxnId → Prop} (hfr : s.frames a = act :: rest)
    (hb : ∀ act' ∈ m, act'.brings = some u → act.brings = some u)
    (hp : ∀ z, .procTransaction z u (some x) ∉ m)
    (h : Coming (s.setFrames a (m ++ rest)) call x u) : Coming s call x u :=
  have hfr' : (s.setFrames a (m ++ rest)).frames = Function.update s.frames a (m ++ rest) := rfl
  (coming_step (P := False) hfr hfr' (.refl _) id id .inl
    (fun act' h hb' _ => .inl (hb act' h hb')) hp h).resolve_right id

/-- What another task knows, and the transactions that it works on, stay. -/
structure Stays (s s' : TxnState) (G G' : Ghost) (act : Act) : Prop where
  sim : ActSim s' G' act
  stale : ∀ t ∈ act.owns, (G'.stale t ↔ G.stale t)
  caller : ∀ t ∈ act.owns, ∀ x, (s'.thread x).isDead = false → G.net.caller t = some x →
    G'.net.caller t = some x
  toProc : ∀ t ∈ act.owns, ∀ T', s'.txn t = some T' → ∃ T, s.txn t = some T ∧ T'.toProc = T.toProc

/-- What the acts `m` of the task `a`, which has the acts `acts` now, must meet. -/
structure NewActs (L : Layout) (s : TxnState) (G : Ghost) (a : Actor) (m acts : List Act) : Prop where
  sim : ∀ act ∈ m, ActSim s G act
  unwinds : ∀ t irt, .unwind t irt ∈ m → G.stale t ∨
    ∃ x r, acts = .popTransaction x t :: .unwind t irt :: r
  pops : ∀ x t, .popTransaction x t ∈ m → G.net.caller t = some x ∧ ¬ G.stale t ∧
    ∃ r, acts = .popTransaction x t :: .unwind t none :: r ∧ ∀ y u, .popTransaction y u ∉ r
  brought : ∀ x act t T, a = .thread x → act ∈ m → act.brings = some t → s.txn t = some T →
    T.toProc = some (L.procOf x)
  lands : ∀ act ∈ m, act.lands = true → acts = [act]
  after : acts.Pairwise fun act act' => act.reads = true → act'.owns = []

theorem NewActs.nil (h : Tasks L s G) (hfr : s.frames a = act :: rest) :
    NewActs L s' G' a [] ([] ++ rest) := by
  have := h.after a
  rw [hfr] at this
  refine ⟨by simp, by simp, by simp, by simp, by simp, this.tail⟩

/-- A task goes on with `m` and `rest'`, where `rest'` is from before. -/
theorem Tasks.turn (h : Tasks L s G)
    (hfr' : s'.frames = Function.update s.frames a (m ++ rest'))
    (hrest : ∀ act ∈ rest', act ∈ s.frames a) (hlands : ∀ act ∈ rest', act.lands = false)
    (hunw : ∀ t irt, .unwind t irt ∈ rest' → G'.stale t)
    (hpop : ∀ x t, .popTransaction x t ∉ rest') (hself : ∀ a' act x, act ∈ s.frames a' →
      act.self = some x → (s'.thread x).isDead = false)
    (hheld : ∀ t, G'.net.status t = .held ↔ OnList s'.owned t) (hplaced : Placed s'.owned)
    (hq : ∀ l t, .transaction t ∈ s'.todo l → ¬ G'.stale t)
    (hnew : NewActs L s' G' a m (m ++ rest'))
    (hkept : ∀ a' act', act' ∈ s.frames a' → (a' = a → act' ∈ rest') → Stays s s' G G' act') :
    Tasks L s' G' := by
  have hmem {a' : Actor} {act' : Act} (hact' : act' ∈ s'.frames a') :
      (a' = a ∧ act' ∈ m) ∨ (act' ∈ s.frames a' ∧ (a' = a → act' ∈ rest')) := by
    rw [hfr'] at hact'
    rcases eq_or_ne a' a with rfl | hne
    · rw [Function.update_self, List.mem_append] at hact'
      exact hact'.imp (fun hn => ⟨rfl, hn⟩) fun hr => ⟨hrest _ hr, fun _ => hr⟩
    · rw [Function.update_of_ne hne] at hact'
      exact .inr ⟨hact', fun he => absurd he hne⟩
  have hself' : s'.frames a = m ++ rest' := by rw [hfr', Function.update_self]
  have hother {a' : Actor} (hne : a' ≠ a) : s'.frames a' = s.frames a' := by
    rw [hfr', Function.update_of_ne hne]
  refine ⟨hheld _, hplaced, hq _ _, ?_, ?_, ?_, ?_, ?_, ?_⟩
  · intro a' act' hact'
    rcases hmem hact' with ⟨-, hn⟩ | ⟨hold, hr⟩
    · exact hnew.sim _ hn
    · exact (hkept a' act' hold hr).sim
  · intro a' t irt hact'
    rcases hmem hact' with ⟨rfl, hn⟩ | ⟨hold, hr⟩
    · rw [hself']
      exact hnew.unwinds _ _ hn
    · by_cases hne : a' = a
      · exact .inl (hunw t irt (hr hne))
      · rw [hother hne]
        exact (h.unwinds hold).imp_left fun hs =>
          ((hkept a' _ hold hr).stale t (mem_owns_of_holds rfl)).mpr hs
  · intro a' x t hact'
    rcases hmem hact' with ⟨rfl, hn⟩ | ⟨hold, hr⟩
    · rw [hself']
      exact hnew.pops _ _ hn
    · have hne : a' ≠ a := fun he => hpop x t (hr he)
      obtain ⟨hc, hs, r, hr', hnp⟩ := h.pops hold
      have hk := hkept a' (.unwind t none) (by rw [hr']; simp) fun he => absurd he hne
      rw [hother hne]
      exact ⟨hk.caller t (mem_owns_of_holds rfl) x (hself a' _ x hold rfl) hc,
        fun hs' => hs ((hk.stale t (mem_owns_of_holds rfl)).mp hs'), r, hr', hnp⟩
  · intro x act' t T' hact' hb hT'
    rcases hmem hact' with ⟨ha, hn⟩ | ⟨hold, hr⟩
    · exact hnew.brought x act' t T' ha.symm hn hb hT'
    · obtain ⟨T, hT, he⟩ := (hkept _ _ hold hr).toProc t (mem_owns_of_brings hb) T' hT'
      rw [he]
      exact h.brought hold hb hT
  · intro a' act' hact' hl
    rcases hmem hact' with ⟨rfl, hn⟩ | ⟨hold, hr⟩
    · rw [hself']
      exact hnew.lands _ hn hl
    · by_cases hne : a' = a
      · rw [hlands act' (hr hne)] at hl
        cases hl
      · rw [hother hne]
        exact h.lands hold hl
  · intro a'
    by_cases hne : a' = a
    · rw [hne, hself']
      exact hnew.after
    · rw [hother hne]
      exact h.after a'

/-- A step of a task. -/
theorem Tasks.step (h : Tasks L s G) (hfr : s.frames a = act :: rest)
    (hact : ∀ x t, act ≠ .popTransaction x t)
    (hfr' : s'.frames = Function.update s.frames a (m ++ rest')) (hrest : rest'.Sublist rest)
    (hself : ∀ a' act x, act ∈ s.frames a' → act.self = some x → (s'.thread x).isDead = false)
    (hheld : ∀ t, G'.net.status t = .held ↔ OnList s'.owned t) (hplaced : Placed s'.owned)
    (hq : ∀ l t, .transaction t ∈ s'.todo l → ¬ G'.stale t)
    (hnew : NewActs L s' G' a m (m ++ rest'))
    (hkept : ∀ a' act', act' ∈ s.frames a' → (a' = a → act' ∈ rest) → Stays s s' G G' act') :
    Tasks L s' G' := by
  have hin : ∀ act' ∈ rest', act' ∈ s.frames a := fun act' h' =>
    hfr ▸ List.mem_cons_of_mem act (hrest.subset h')
  refine h.turn hfr' hin (fun act' h' => ?_) (fun t irt h' => ?_) (fun x t h' => ?_) hself hheld
    hplaced hq hnew fun a' act' h' hr => hkept a' act' h' fun he => hrest.subset (hr he)
  · by_contra hl
    have := h.lands (hin act' h') (by simpa using hl)
    rw [hfr] at this
    cases this
    exact absurd (hrest.subset h') (by simp)
  · have hk := hkept a (.unwind t irt) (hin _ h') fun _ => hrest.subset h'
    refine (hk.stale t (mem_owns_of_holds rfl)).mpr ?_
    refine (h.unwinds (hin _ h')).resolve_right ?_
    rintro ⟨x, r, he⟩
    rw [hfr] at he
    cases he
    exact hact x t rfl
  · obtain ⟨-, -, r, he, -⟩ := h.pops (hin _ h')
    rw [hfr] at he
    cases he
    exact hact x t rfl

/-- Threads that wait, after a step of a task. -/
theorem Idle.turn (h : Idle s G) (hfr' : s'.frames = Function.update s.frames a (m ++ rest'))
    (hrest : ∀ act ∈ rest', act ∈ s.frames a)
    (hstk : ∀ x, (∃ act ∈ s.frames (.thread x), act.idles = some x) → G.net.stack x = [] →
      G'.net.stack x = [])
    (hnew : ∀ x act, a = .thread x → act ∈ m → act.idles = some x → G'.net.stack x = [])
    (hfirst : ∀ x t, (s'.thread x).isDead = false → G'.net.stack x = [] → G'.call t →
      .transaction t ∈ s'.todo (.thread x) → (s'.todo (.thread x)).head? = some (.transaction t))
    (hquiet : ∀ x, .wait x true ∈ s.frames (.thread x) ∨ .sleep x true ∈ s.frames (.thread x) →
      ((s.thread x).processTodo = false → s.todo (.thread x) = []) →
      (s'.thread x).processTodo = false → s'.todo (.thread x) = [])
    (hquietNew : ∀ x, a = .thread x → .wait x true ∈ m ∨ .sleep x true ∈ m →
      (s'.thread x).processTodo = false → s'.todo (.thread x) = [])
    (hwait : ∀ p x, x ∈ s'.waitingThreads p → (s'.thread x).processTodo = false) : Idle s' G' := by
  have hmem {a' : Actor} {act' : Act} (hact' : act' ∈ s'.frames a') :
      (a' = a ∧ act' ∈ m) ∨ act' ∈ s.frames a' := by
    rw [hfr'] at hact'
    rcases eq_or_ne a' a with rfl | hne
    · rw [Function.update_self, List.mem_append] at hact'
      exact hact'.imp (fun hn => ⟨rfl, hn⟩) fun hr => hrest _ hr
    · rw [Function.update_of_ne hne] at hact'
      exact .inr hact'
  refine ⟨fun {x act} hact hx => ?_, fun {x t} hd hs hc ht => hfirst x t hd hs hc ht,
    fun {x} hx hp => ?_, fun {p x} hx => hwait p x hx⟩
  · rcases hmem hact with ⟨ha, hn⟩ | hold
    · exact hnew x act ha.symm hn hx
    · exact hstk x ⟨act, hold, hx⟩ (h.idle hold hx)
  · have hcases : (Actor.thread x = a ∧ (.wait x true ∈ m ∨ .sleep x true ∈ m)) ∨
        (.wait x true ∈ s.frames (.thread x) ∨ .sleep x true ∈ s.frames (.thread x)) := by
      rcases hx with hx | hx
      · exact (hmem hx).imp (And.imp_right .inl) .inl
      · exact (hmem hx).imp (And.imp_right .inr) .inr
    rcases hcases with ⟨ha, hn⟩ | hold
    · exact hquietNew x ha.symm hn hp
    · exact hquiet x hold (fun hp' => h.quiet hold hp') hp

/-! ## Where the transactions are -/

theorem owned_eq (htodo : s'.todo = s.todo) (hfr' : s'.frames = Function.update s.frames a acts) :
    s'.owned = Function.update s.owned (.actor a) (acts.flatMap Act.owns) := by
  funext p
  rcases p with l | a'
  · simp [TxnState.owned, htodo]
  · by_cases h : a' = a
    · subst h; simp [TxnState.owned, hfr']
    · simp [TxnState.owned, hfr', h]

theorem owned_eq_todo (htodo : s'.todo = Function.update s.todo l ws)
    (hfr' : s'.frames = Function.update s.frames a acts) :
    s'.owned = Function.update (Function.update s.owned (.list l) (ws.filterMap Work.txn?)) (.actor a)
      (acts.flatMap Act.owns) := by
  funext p
  rcases p with l' | a'
  · by_cases h : l' = l
    · subst h; simp [TxnState.owned, htodo]
    · simp [TxnState.owned, htodo, h]
  · by_cases h : a' = a
    · subst h; simp [TxnState.owned, hfr']
    · simp [TxnState.owned, hfr', h]

theorem owned_actor (hfr : s.frames a = act :: rest) :
    s.owned (.actor a) = act.owns ++ rest.flatMap Act.owns := by
  simp [TxnState.owned, hfr]

/-- Nothing but the order of the transactions of a task changes. -/
theorem owned_same (h : Tasks L s G) (hfr : s.frames a = act :: rest)
    (htodo : ∀ l, (s'.todo l).filterMap Work.txn? = (s.todo l).filterMap Work.txn?)
    (hfr' : s'.frames = Function.update s.frames a (m ++ rest'))
    (hown : (m ++ rest').flatMap Act.owns = act.owns ++ rest.flatMap Act.owns) :
    Placed s'.owned ∧ ∀ t, OnList s'.owned t ↔ OnList s.owned t := by
  have he : s'.owned = s.owned := by
    funext p
    rcases p with l | a'
    · exact htodo l
    · by_cases hne : a' = a
      · subst hne
        rw [owned_actor hfr, ← hown]
        simp [TxnState.owned, hfr']
      · simp [TxnState.owned, hfr', hne]
  rw [he]
  exact ⟨h.placed, fun _ => .rfl⟩

/-- A transaction of a task is freed. -/
theorem owned_free (h : Tasks L s G) (hfr : s.frames a = act :: rest) (htodo : s'.todo = s.todo)
    (hfr' : s'.frames = Function.update s.frames a (m ++ rest))
    (hown : act.owns = t :: m.flatMap Act.owns) :
    Placed s'.owned ∧ ∀ u, OnList s'.owned u ↔ OnList s.owned u ∧ u ≠ t := by
  have hold : s.owned (.actor a) = t :: (m ++ rest).flatMap Act.owns := by
    rw [owned_actor hfr, hown, List.flatMap_append, List.cons_append]
  have hn := h.placed.nodup (.actor a)
  rw [hold, List.nodup_cons] at hn
  rw [owned_eq htodo hfr']
  refine ⟨h.placed.shrink (by rw [hold]; exact List.sublist_cons_self _ _), fun u => ?_⟩
  rw [onList_update]
  constructor
  · rintro (hu | ⟨p, hp, hu⟩)
    · exact ⟨⟨.actor a, by rw [hold]; exact List.mem_cons_of_mem _ hu⟩, fun he => hn.1 (he ▸ hu)⟩
    · refine ⟨⟨p, hu⟩, ?_⟩
      rintro rfl
      exact hp (h.placed.unique hu (by rw [hold]; exact List.mem_cons_self))
  · rintro ⟨⟨p, hu⟩, hne⟩
    by_cases hp : p = .actor a
    · subst hp
      rw [hold] at hu
      exact .inl ((List.mem_cons.mp hu).resolve_left hne)
    · exact .inr ⟨p, hp, hu⟩

/-- A transaction that was at no place comes to a task. -/
theorem owned_take (h : Tasks L s G) (htodo : s'.todo = s.todo)
    (hfr' : s'.frames = Function.update s.frames a acts) (ht : ¬ OnList s.owned t)
    (hown : acts.flatMap Act.owns = t :: s.owned (.actor a) ∨
      ∃ u l, s.owned (.actor a) = u :: l ∧ acts.flatMap Act.owns = u :: t :: l) :
    Placed s'.owned ∧ ∀ u, OnList s'.owned u ↔ OnList s.owned u ∨ u = t := by
  have hperm : (acts.flatMap Act.owns).Perm (t :: s.owned (.actor a)) := by
    rcases hown with he | ⟨u, l, hl, he⟩
    · rw [he]
    · rw [he, hl]
      exact List.Perm.swap ..
  have hn := h.placed.nodup (.actor a)
  rw [owned_eq htodo hfr']
  have hnd : (acts.flatMap Act.owns).Nodup :=
    hperm.nodup_iff.mpr (List.nodup_cons.mpr ⟨fun hm => ht ⟨_, hm⟩, hn⟩)
  refine ⟨h.placed.grow ht hnd fun u hu => List.mem_cons.mp (hperm.mem_iff.mp hu), fun u => ?_⟩
  rw [onList_update, hperm.mem_iff, List.mem_cons]
  constructor
  · rintro ((rfl | hu) | ⟨p, -, hu⟩)
    · exact .inr rfl
    · exact .inl ⟨_, hu⟩
    · exact .inl ⟨_, hu⟩
  · rintro (⟨p, hu⟩ | rfl)
    · by_cases hp : p = .actor a
      · subst hp
        exact .inl (.inr hu)
      · exact .inr ⟨p, hp, hu⟩
    · exact .inl (.inl rfl)

/-- A task puts a transaction on a work list. -/
theorem owned_put (h : Tasks L s G) (hfr : s.frames a = act :: rest)
    (htodo : s'.todo = Function.update s.todo l (s.todo l ++ [Work.transaction t]))
    (hfr' : s'.frames = Function.update s.frames a (m ++ rest))
    (hown : act.owns = t :: m.flatMap Act.owns) :
    Placed s'.owned ∧ ∀ u, OnList s'.owned u ↔ OnList s.owned u := by
  have hold : s.owned (.actor a) = t :: (m ++ rest).flatMap Act.owns := by
    rw [owned_actor hfr, hown, List.flatMap_append, List.cons_append]
  have hn := h.placed.nodup (.actor a)
  rw [hold, List.nodup_cons] at hn
  have hws : (s.todo l ++ [Work.transaction t]).filterMap Work.txn? = s.owned (.list l) ++ [t] := by
    simp [TxnState.owned, Work.txn?]
  have ht : t ∈ s.owned (.actor a) := by rw [hold]; exact List.mem_cons_self
  have htl : t ∉ s.owned (.list l) := fun hm => by
    have := h.placed.unique hm ht
    cases this
  rw [owned_eq_todo htodo hfr', hws, Function.update_comm (by simp)]
  refine ⟨h.placed.move ht (by rw [hold]; exact List.sublist_cons_self _ _) hn.1 (by simp)
    (List.nodup_append.mpr ⟨h.placed.nodup _, List.nodup_singleton _, ?_⟩) (by simp [or_comm]), ?_⟩
  · rintro u hu v hv rfl
    rw [List.mem_singleton] at hv
    exact htl (hv ▸ hu)
  · intro u
    rw [onList_update]
    constructor
    · rintro (hu | ⟨p, hp, hu⟩)
      · rcases List.mem_append.mp hu with hu | hu
        · exact ⟨_, hu⟩
        · exact ⟨_, List.mem_singleton.mp hu ▸ ht⟩
      · by_cases hpa : p = .actor a
        · subst hpa
          rw [Function.update_self] at hu
          exact ⟨_, by rw [hold]; exact List.mem_cons_of_mem _ hu⟩
        · exact ⟨p, by rwa [Function.update_of_ne hpa] at hu⟩
    · rintro ⟨p, hu⟩
      by_cases hpl : p = .list l
      · subst hpl
        exact .inl (List.mem_append_left _ hu)
      · by_cases hpa : p = .actor a
        · subst hpa
          rw [hold, List.mem_cons] at hu
          rcases hu with rfl | hu
          · exact .inl (by simp)
          · exact .inr ⟨_, hpl, by rwa [Function.update_self]⟩
        · exact .inr ⟨p, hpl, by rwa [Function.update_of_ne hpa]⟩

/-- A task takes the first transaction off a work list. -/
theorem owned_get (h : Tasks L s G) (hfr : s.frames a = act :: rest) (hl : s.todo l = .transaction t :: ws)
    (htodo : s'.todo = Function.update s.todo l ws)
    (hfr' : s'.frames = Function.update s.frames a (m ++ rest))
    (hown : m.flatMap Act.owns = t :: act.owns) :
    Placed s'.owned ∧ ∀ u, OnList s'.owned u ↔ OnList s.owned u := by
  have hnew : (m ++ rest).flatMap Act.owns = t :: s.owned (.actor a) := by
    rw [owned_actor hfr, List.flatMap_append, hown, List.cons_append]
  have hlist : s.owned (.list l) = t :: ws.filterMap Work.txn? := by
    simp [TxnState.owned, hl, Work.txn?]
  have hn := h.placed.nodup (.list l)
  rw [hlist, List.nodup_cons] at hn
  have ht : t ∈ s.owned (.list l) := by rw [hlist]; exact List.mem_cons_self
  have hta : t ∉ s.owned (.actor a) := fun hm => by
    have := h.placed.unique hm ht
    cases this
  rw [owned_eq_todo htodo hfr', hnew]
  refine ⟨h.placed.move ht (by rw [hlist]; exact List.sublist_cons_self _ _) hn.1 (by simp)
    (List.nodup_cons.mpr ⟨hta, h.placed.nodup _⟩) (by simp), fun u => ?_⟩
  rw [onList_update, List.mem_cons]
  constructor
  · rintro ((rfl | hu) | ⟨p, hp, hu⟩)
    · exact ⟨_, ht⟩
    · exact ⟨_, hu⟩
    · by_cases hpl : p = .list l
      · subst hpl
        rw [Function.update_self] at hu
        exact ⟨_, by rw [hlist]; exact List.mem_cons_of_mem _ hu⟩
      · exact ⟨p, by rwa [Function.update_of_ne hpl] at hu⟩
  · rintro ⟨p, hu⟩
    by_cases hpa : p = .actor a
    · subst hpa
      exact .inl (.inr hu)
    · by_cases hpl : p = .list l
      · subst hpl
        rw [hlist, List.mem_cons] at hu
        rcases hu with rfl | hu
        · exact .inl (.inl rfl)
        · exact .inr ⟨_, hpa, by rwa [Function.update_self]⟩
      · exact .inr ⟨p, hpa, by rwa [Function.update_of_ne hpl]⟩

/-! ## Steps that leave the chains -/

/-- In a step that leaves the chains, what another task knows stays. -/
theorem Stays.same (h : Tasks L s G) (hi : Inv L s) (hs : Sched L s) (hfr : s.frames a = act :: rest)
    (hact' : act' ∈ s.frames a') (hne : a' = a → act' ∈ rest) (hsame : SameNet s s')
    (hnet : G'.net = G.net) (hcall : G'.call = G.call)
    (hstale : ∀ u, u ∉ act.owns → (G'.stale u ↔ G.stale u))
    (hcome : ∀ x u, s.frames (.thread x) = [act'] → act'.calls = true →
      Coming s' G.call x u → Coming s G.call x u) : Stays s s' G G' act' := by
  have hst {u : TxnId} (hu : u ∈ act'.owns) : G'.stale u ↔ G.stale u :=
    hstale u fun ho => h.other hfr ho hact' hne hu
  have hfields {u : TxnId} {T : Transaction} (hT : s.txn u = some T) :
      ∃ T', s'.txn u = some T' ∧ T.Same T' := by
    rcases hsame.txn u with he | ⟨T₀, hT₀, he⟩
    · exact ⟨T, by rw [he, hT], ⟨rfl, rfl, rfl, rfl, rfl, rfl, .inl rfl⟩⟩
    · rw [hT] at hT₀
      cases hT₀
      exact ⟨_, he, ⟨rfl, rfl, rfl, rfl, rfl, rfl, .inr rfl⟩⟩
  refine ⟨(h.acts hact').mono (fun y hy => by rwa [hsame.dead] at hy) (fun x hx => ?_)
    (fun u hu => ⟨by rw [hcall], hst hu⟩) (fun u _ T' hT' => ?_) (fun x u irt th T _ hT => ?_)
    (fun r _ y _ hc => by rwa [hnet]) (fun x th hc hx hr => hr.mono (by rw [hnet]) (fun u hu => ?_)
      fun y hd => ⟨by rwa [hsame.dead] at hd, fun hw => by rwa [hnet]⟩)
    (fun x t y _ _ _ hy => by rwa [hnet]), fun u hu => hst hu,
    fun u _ y _ hc => by rwa [hnet], fun u _ T' hT' => ?_⟩
  · rw [hsame.dead]
    have ha := hi.self hact' hx
    subst ha
    by_contra hd
    rw [hs.dead (by simpa using hd) hact'] at hx
    cases hx
  · obtain ⟨T, hT, he⟩ := hsame.of_some hT'
    exact ⟨T, hT, he.oneWay⟩
  · obtain ⟨T', hT', he⟩ := hfields hT
    exact ⟨T', hT', he.fromThread, he.fromParent, he.oneWay⟩
  · have ha := hi.self hact' hx
    subst ha
    exact hcome x u (hi.alone hact' hc) hc (by rwa [hcall] at hu)
  · obtain ⟨T, hT, he⟩ := hsame.of_some hT'
    exact ⟨T, hT, he.toProc⟩

/-- A thread with an act of its own is not dead. -/
theorem Sched.alive (hs : Sched L s) (hi : Inv L s) (hact : act ∈ s.frames a) (hx : act.self = some x) :
    (s.thread x).isDead = false := by
  have ha := hi.self hact hx
  subst ha
  by_contra hd
  rw [hs.dead (by simpa using hd) hact] at hx
  cases hx

/-- A step of a task that leaves the chains. -/
theorem Sim.turn (h : Sim L s G) (hi : Inv L s) (hs : Sched L s) (hfr : s.frames a = act :: rest)
    (hact : ∀ x t, act ≠ .popTransaction x t)
    (hfr' : s'.frames = Function.update s.frames a (m ++ rest')) (hrest : rest'.Sublist rest)
    (hsame : SameNet s s') (hnet : G'.net = G.net) (hcall : G'.call = G.call)
    (hstale : ∀ u, u ∉ act.owns → (G'.stale u ↔ G.stale u)) (hdata : Data L s' G')
    (hok : Ok G.net (Coming s' G.call))
    (hcome : ∀ x u, (∃ act ∈ s.frames (.thread x), act.calls = true) → Coming s' G.call x u →
      Coming s G.call x u)
    (hown : Placed s'.owned ∧ ∀ t, OnList s'.owned t ↔ OnList s.owned t)
    (hq : ∀ l t, .transaction t ∈ s'.todo l → ¬ G'.stale t)
    (hnew : NewActs L s' G' a m (m ++ rest')) (hidle : Idle s' G') : Sim L s' G' := by
  refine ⟨by rw [hnet, hcall]; exact hok, by rw [hnet]; exact h.ends, hdata, ?_, hidle⟩
  refine h.tasks.step hfr hact hfr' hrest (fun a' act' x hact' hx => ?_) (fun t => ?_) hown.1 hq hnew
    fun a' act' hact' hne => .same h.tasks hi hs hfr hact' hne hsame hnet hcall hstale
      fun x u hx hc => hcome x u ⟨act', by rw [hx]; simp, hc⟩
  · rw [hsame.dead]
    exact hs.alive hi hact' hx
  · rw [hnet, hown.2]
    exact h.tasks.held

/-- The acts that come in the place of `act` in a step that leaves the work lists. -/
structure Turns (L : Layout) (s s' : TxnState) (G G' : Ghost) (act : Act) (m rest' : List Act) :
    Prop where
  sim : ∀ act' ∈ m, ActSim s' G' act'
  owns : m.flatMap Act.owns = act.owns
  unwinds : ∀ t irt, .unwind t irt ∈ m → G'.stale t
  noPop : ∀ x t, .popTransaction x t ∉ m
  brings : ∀ act' ∈ m, ∀ u, act'.brings = some u → act.brings = some u
  targets : ∀ z u y, .procTransaction z u (some y) ∉ m
  lands : ∀ act' ∈ m, act'.lands = true → m ++ rest' = [act']
  reads : ∀ act' ∈ m, act'.reads = true → act.reads = true
  after : m.Pairwise fun act act' => act.reads = true → act'.owns = []
  idle : ∀ act' ∈ m, ∀ x, act'.idles = some x → act.idles = some x ∨ G.net.stack x = []
  quiet : ∀ x, .wait x true ∈ m ∨ .sleep x true ∈ m →
    act = .wait x true ∨ act = .sleep x true ∨ s.todo (.thread x) = []

/-- A step of a task that leaves the chains and the work lists. -/
theorem Sim.control (h : Sim L s G) (hi : Inv L s) (hs : Sched L s) (hfr : s.frames a = act :: rest)
    (hact : ∀ x t, act ≠ .popTransaction x t)
    (hfr' : s'.frames = Function.update s.frames a (m ++ rest')) (hrest : rest'.Sublist rest)
    (hdrop : rest'.flatMap Act.owns = rest.flatMap Act.owns)
    (hsame : SameNet s s') (hnet : G'.net = G.net) (hcall : G'.call = G.call)
    (hstale : ∀ u, u ∉ act.owns → (G'.stale u ↔ G.stale u)) (hdata : Data L s' G')
    (htodo : s'.todo = s.todo) (hthr : ∀ x, (s'.thread x).processTodo = (s.thread x).processTodo)
    (hwait : ∀ p x, x ∈ s'.waitingThreads p → x ∈ s.waitingThreads p ∨ (s.thread x).processTodo = false)
    (hnew : Turns L s s' G G' act m rest') : Sim L s' G' := by
  have hin : ∀ act' ∈ rest', act' ∈ s.frames a := fun act' h' =>
    hfr ▸ List.mem_cons_of_mem act (hrest.subset h')
  have hcome {x : ThreadId} {u : TxnId} (hu : Coming s' G.call x u) : Coming s G.call x u :=
    (coming_step (P := False) hfr hfr' hrest (fun hd => by rwa [hsame.dead] at hd) id
      (fun ht => .inl (by rwa [htodo] at ht)) (fun act' h' hb _ => .inl (hnew.brings act' h' u hb))
      (fun z h' => hnew.targets z u x h') hu).resolve_right id
  refine h.turn hi hs hfr hact hfr' hrest hsame hnet hcall hstale hdata
    (h.ok.mono fun x u hu => hcome hu) (fun x u _ hu => hcome hu)
    (owned_same h.tasks hfr (fun l => by rw [htodo]) hfr'
      (by rw [List.flatMap_append, hnew.owns, hdrop])) ?_ ?_ ?_
  · intro l t ht hs'
    rw [htodo] at ht
    refine h.tasks.queued ht ((hstale t fun ho => ?_).mp hs')
    exact h.tasks.not_todo (hfr ▸ List.mem_cons_self) ho ht
  · refine ⟨hnew.sim, fun t irt hu => .inl (hnew.unwinds t irt hu), fun x t hp =>
      absurd hp (hnew.noPop x t), ?_, hnew.lands, ?_⟩
    · intro x act' t T' hx hact' hb hT'
      subst hx
      obtain ⟨T, hT, he⟩ := hsame.of_some hT'
      rw [he.toProc]
      exact h.tasks.brought (hfr ▸ List.mem_cons_self) (hnew.brings act' hact' t hb) hT
    · have := h.tasks.after a
      rw [hfr, List.pairwise_cons] at this
      exact List.pairwise_append.mpr ⟨hnew.after, this.2.sublist hrest, fun act' h' act'' h'' hr =>
        this.1 act'' (hrest.subset h'') (hnew.reads act' h' hr)⟩
  · refine h.idle.turn hfr' hin (fun x _ hx => by rwa [hnet]) (fun x act' hx hact' hid => ?_)
      (fun x t hd hx hc ht => ?_) (fun x _ hq hp => ?_) (fun x hx hw hp => ?_) fun p x hx => ?_
    · rw [hnet]
      subst hx
      rcases hnew.idle act' hact' x hid with hid | hx
      · exact h.idle.idle (hfr ▸ List.mem_cons_self) hid
      · exact hx
    · rw [hsame.dead] at hd
      rw [hnet] at hx
      rw [hcall] at hc
      rw [htodo] at ht ⊢
      exact h.idle.first hd hx hc ht
    · rw [htodo]
      exact hq (by rwa [hthr] at hp)
    · subst hx
      rw [hthr] at hp
      rw [htodo]
      rcases hnew.quiet x hw with rfl | rfl | he
      · exact h.idle.quiet (.inl (hfr ▸ List.mem_cons_self)) hp
      · exact h.idle.quiet (.inr (hfr ▸ List.mem_cons_self)) hp
      · exact he
    · rw [hthr]
      rcases hwait p x hx with hx | hx
      · exact h.idle.waiting hx
      · exact hx

/-- A step of a task that changes nothing but what it has to do next. -/
theorem Sim.setFrames (h : Sim L s G) (hi : Inv L s) (hs : Sched L s) (hfr : s.frames a = act :: rest)
    (hact : ∀ x t, act ≠ .popTransaction x t) (m : List Act)
    (hnew : Turns L s (s.setFrames a (m ++ rest)) G G act m rest) :
    Sim L (s.setFrames a (m ++ rest)) G :=
  have hsame : SameNet s (s.setFrames a (m ++ rest)) := .of_eq rfl rfl (fun _ => rfl) fun _ => rfl
  h.control hi hs hfr hact rfl (.refl _) rfl hsame rfl rfl (fun _ _ => .rfl) (h.data.same hsame) rfl
    (fun _ => rfl) (fun _ _ => .inl) hnew

/-! ### The checks in `binder_transaction` -/

/-- The top of the stack of `x` has come to `x`. -/
theorem Sim.top_serve (h : Sim L s G) (hx : (s.thread x).isDead = false)
    (hst : (s.thread x).transactionStack = some t) (hT : s.txn t = some T) (hto : T.toThread = some x) :
    ∃ r, G.net.stack x = .serve t :: r := by
  have htop := h.data.top hx
  rw [hst] at htop
  cases hs : G.net.stack x with
  | nil => rw [hs] at htop; cases htop
  | cons e r =>
    rw [hs] at htop
    cases e with
    | serve u => cases htop; exact ⟨r, rfl⟩
    | call u =>
      obtain rfl : t = u := Option.some.inj htop
      have hc : G.net.caller t = some x := h.ok.call_iff.mp (by rw [hs]; simp)
      have hn : ¬ G.stale t := fun hst => by
        rw [(h.data.stale hst).1] at hc
        cases hc
      exact absurd (h.data.toThread hT hto)
        (h.data.apart hT ((h.data.fresh hT hn).1.symm.trans hc))

theorem Sim.stack_nil (h : Sim L s G) (hx : (s.thread x).isDead = false)
    (hst : (s.thread x).transactionStack = none) : G.net.stack x = [] := by
  have htop := h.data.top hx
  rw [hst] at htop
  cases hs : G.net.stack x with
  | nil => rfl
  | cons e r => rw [hs] at htop; cases htop

/-- Nothing comes to a thread in `binder_transaction` that does not wait, unless its work list begins
with it. -/
theorem Sim.not_coming (h : Sim L s G) (hfr : s.frames (.thread x) = [act]) (hc : act.calls = true)
    (htop : ∀ c l, G.net.stack x ≠ .call c :: l)
    (hhead : G.net.stack x = [] → ∀ t, (s.todo (.thread x)).head? ≠ some (.transaction t)) :
    ¬ Coming s G.call x u := by
  intro hu
  have hnil : G.net.stack x = [] := by
    rcases h.ok.due hu with ⟨hs, -⟩ | ⟨v, l, hs, -⟩
    · exact hs
    · exact absurd hs (htop v l)
  obtain ⟨hd, hcall, ht | ⟨act', hact', hb⟩ | ⟨a', z, hp⟩⟩ := hu
  · exact hhead hnil u (h.idle.first hd hnil hcall ht)
  · rw [hfr, List.mem_singleton] at hact'
    subst hact'
    cases act' <;> cases hc <;> cases hb
  · exact ((h.tasks.acts hp).2 hcall).2 x rfl hd hnil

/-- The thread that the loop in `binder_transaction` finds waits for `x`. -/
theorem Sim.findThread_waits (h : Sim L s G) {tp : ProcId} {p : TxnId} {fuel : Nat} {v : TxnId}
    {r : List (Entry TxnId)} (hx : G.net.stack x = .serve p :: r) (hxt : L.procOf x ≠ tp)
    (hv : ReflTransGen G.net.Calls v p) (hst : G.net.status v ≠ .held) (hst' : G.net.status v ≠ .absent)
    (hnear : ∀ c z, TransGen G.net.Calls v c → ReflTransGen G.net.Calls c p →
      G.net.caller c = some z → L.procOf z ≠ tp)
    (hf : s.findThread L tp fuel (some v) = some (some y)) : x ≠ y ∧ G.net.Waits y x := by
  induction fuel generalizing v with
  | zero => cases hf
  | succ fuel ih =>
    obtain ⟨T, hT, hf⟩ := Option.bind_eq_some_iff.mp hf
    obtain ⟨hfrom, hpar⟩ := h.data.fresh hT (h.data.stacked hst' hst).2
    have hnext (hcv : ∀ z, G.net.caller v = some z → L.procOf z ≠ tp)
        (hf : s.findThread L tp fuel T.fromParent = some (some y)) : x ≠ y ∧ G.net.Waits y x := by
      cases hq : T.fromParent with
      | none =>
        rw [hq] at hf
        cases fuel <;> cases hf
      | some q =>
        rw [hq] at hf hpar
        have hqv : G.net.Calls q v := hpar
        have hq' : G.net.status q ≠ .held ∧ G.net.status q ≠ .absent := by
          rcases h.ok.parent hqv with ⟨z, -, hs⟩ | ⟨-, hs⟩ <;> rw [hs] <;> simp
        refine ih (.head hqv hv) hq'.1 hq'.2 (fun c z hqc hcp hcz => ?_) hf
        obtain ⟨d, hqd, hdc⟩ := TransGen.head'_iff.mp hqc
        cases h.ok.unique hqd hqv
        rcases reflTransGen_iff_eq_or_transGen.mp hdc with rfl | hdc
        · exact hcv z hcz
        · exact hnear c z hdc hcp hcz
    cases hy : T.fromThread with
    | none =>
      rw [hy] at hf hfrom
      exact hnext (fun z hz => by rw [hfrom] at hz; cases hz) hf
    | some z =>
      rw [hy] at hf hfrom
      simp only at hf
      split at hf
      · rename_i hz
        cases hf
        refine ⟨fun he => hxt (he ▸ hz), ?_⟩
        obtain ⟨r', hr'⟩ := h.ok.nearest hx (fun he => hxt (he ▸ hz)) hfrom hv fun c hc hcp hcy =>
          hnear c y hc hcp hcy hz
        exact ⟨v, r', p, r, hr', hx, hv⟩
      · rename_i hz
        refine hnext (fun w hw => ?_) hf
        rw [hfrom] at hw
        cases hw
        exact hz

/-- An act in the place of another one that is of no special kind. -/
theorem Turns.one (hsim : ActSim s' G' act') (howns : act'.owns = act.owns)
    (hunw : ∀ t irt, act' = .unwind t irt → G'.stale t) (hpop : ∀ x t, act' ≠ .popTransaction x t)
    (hpt : ∀ z u y, act' ≠ .procTransaction z u (some y)) (hreads : act'.reads = false)
    (hb : act'.brings = none) (hl : act'.lands = false) (hid : act'.idles = none) :
    Turns L s s' G G' act [act'] rest' where
  sim := by simpa using hsim
  owns := by simpa using howns
  unwinds t irt h := hunw t irt (List.mem_singleton.mp h).symm
  noPop x t h := hpop x t (List.mem_singleton.mp h).symm
  brings := by simp [hb]
  targets z u y h := hpt z u y (List.mem_singleton.mp h).symm
  lands := by simp [hl]
  reads := by simp [hreads]
  after := List.pairwise_singleton ..
  idle := by simp [hid]
  quiet x h := by
    rcases h with h | h <;> rw [List.mem_singleton] at h <;> subst h <;> cases hid

/-- An act that is over. -/
theorem Turns.done (howns : act.owns = []) : Turns L s s' G G' act [] rest' := by
  constructor <;> simp [howns]

theorem Sim.exec_checkFirst {tp : ProcId} {n : NodeId} (h : Sim L s G) (hi : Inv L s) (hs : Sched L s)
    (hfr : s.frames a = .check x tp n false :: rest)
    (hhead : ∀ t, (s.todo (.thread x)).head? ≠ some (.transaction t))
    (hst : (s.thread x).transactionStack = none) :
    Sim L (s.setFrames a (.send x tp (some n) none none false :: rest)) G := by
  have hact : .check x tp n false ∈ s.frames a := hfr ▸ List.mem_cons_self
  have ha := hi.self hact rfl
  subst ha
  have hnil := h.stack_nil (hs.alive hi hact rfl) hst
  refine h.setFrames hi hs hfr (by simp) [_] (.one ⟨by rintro r ⟨⟩, fun _ _ => ?_⟩ rfl (by simp) (by simp)
    (by simp) rfl rfl rfl rfl)
  refine ⟨by simp [hnil], fun u hu => ?_, by simp⟩
  refine h.not_coming (u := u) (hi.alone hact rfl) rfl (by simp [hnil]) (fun _ => hhead) ?_
  exact coming_setFrames hfr (by simp [Act.brings]) (by simp) hu

theorem Sim.exec_checkNested {tp : ProcId} {n : NodeId} {th : Option ThreadId} (h : Sim L s G)
    (hi : Inv L s) (hs : Sched L s) (hfr : s.frames a = .check x tp n false :: rest)
    (hne : L.procOf x ≠ tp) (hst : (s.thread x).transactionStack = some t) (hT : s.txn t = some T)
    (hto : T.toThread = some x) (hf : s.findThread L tp env.fuel (some t) = some th) :
    Sim L (s.setFrames a (.send x tp (some n) none th false :: rest)) G := by
  have hact : .check x tp n false ∈ s.frames a := hfr ▸ List.mem_cons_self
  have ha := hi.self hact rfl
  subst ha
  obtain ⟨r, hr⟩ := h.top_serve (hs.alive hi hact rfl) hst hT hto
  have hserved : G.net.status t = .served x := h.ok.serve_iff.mp (by rw [hr]; simp)
  refine h.setFrames hi hs hfr (by simp) [_] (.one ⟨by rintro r ⟨⟩, fun _ _ => ?_⟩ rfl (by simp) (by simp)
    (by simp) rfl rfl rfl rfl)
  refine ⟨by simp [hr], fun u hu => ?_, ?_⟩
  · refine h.not_coming (u := u) (hi.alone hact rfl) rfl (by simp [hr]) (by simp [hr]) ?_
    exact coming_setFrames hfr (by simp [Act.brings]) (by simp) hu
  · rintro y rfl
    have hleaf : ∀ c, ¬ TransGen G.net.Calls t c := by
      intro c hc
      obtain ⟨d, hd, -⟩ := TransGen.head'_iff.mp hc
      exact h.ok.top_serve hr hd
    obtain ⟨hxy, hw⟩ := h.findThread_waits hr hne .refl (by simp [hserved]) (by simp [hserved])
      (fun c z hc => absurd hc (hleaf c)) hf
    exact ⟨hxy, fun _ => hw⟩

theorem Sim.exec_replyTarget {irt : TxnId} {oneWay : Bool} (h : Sim L s G) (hi : Inv L s)
    (hs : Sched L s) (hfr : s.frames a = .replyTarget x irt oneWay :: rest) (hT : s.txn irt = some T)
    (hy : T.fromThread = some y) :
    (s.thread y).transactionStack = some irt ∧
      Sim L (s.setFrames a (.send x (L.procOf y) none (some irt) (some y) oneWay :: rest)) G := by
  have hact : .replyTarget x irt oneWay ∈ s.frames a := hfr ▸ List.mem_cons_self
  obtain ⟨hc, hn⟩ := h.tasks.acts hact
  have hcaller := (h.data.fresh hT hn).1.trans hy
  have hheld := h.tasks.status hact (t := irt) (by simp [Act.owns, Act.refs])
  obtain ⟨r, hr⟩ := h.ok.top hheld hcaller
  refine ⟨by rw [h.data.top (h.data.alive (by simp [hr])), hr]; rfl, ?_⟩
  refine h.setFrames hi hs hfr (by simp) [_] (.one ⟨?_, by simp⟩ rfl (by simp) (by simp)
    (by simp) rfl rfl rfl rfl)
  rintro r' ⟨⟩
  exact ⟨hc, hn, y, rfl, fun _ => hcaller⟩

theorem Turns.onError {irt : Option TxnId} (h : ∀ r, irt = some r → G.call r ∧ ¬ G.stale r)
    (howns : act.owns = irt.toList) : Turns L s s' G G act (TxnState.onError irt) rest' := by
  cases irt with
  | none => exact .done howns
  | some r =>
    exact .one (h r rfl) (howns.trans rfl).symm (by simp) (by simp) (by simp) rfl rfl rfl rfl

theorem Sim.exec_buildFail {irt : Option TxnId} {th : Option ThreadId} (h : Sim L s G) (hi : Inv L s)
    (hs : Sched L s) (hfr : s.frames a = .build x t irt th :: rest) :
    Sim L (s.setFrames a (.unwind t irt :: rest)) (G.over t) := by
  have hact : .build x t irt th ∈ s.frames a := hfr ▸ List.mem_cons_self
  obtain ⟨hr, hst, T, hT, -⟩ := h.tasks.acts hact
  have hheld := h.tasks.status hact (t := t) (mem_owns_of_holds rfl)
  have hsame : SameNet s (s.setFrames a (.unwind t irt :: rest)) := .of_eq rfl rfl (fun _ => rfl) fun _ => rfl
  have hnone : G.net.caller t = none ∧ G.net.parent t = none := by
    by_cases hs : G.stale t
    · exact h.data.stale hs
    · obtain ⟨h₁, h₂⟩ := h.data.fresh hT hs
      obtain ⟨h₃, h₄⟩ := h.data.plain hT fun hc => hs (hst.mpr hc)
      exact ⟨h₁.trans h₃, h₂.trans h₄⟩
  have hne : ∀ r, irt = some r → r ≠ t := by
    rintro r rfl rfl
    have hn := h.tasks.placed.nodup (.actor a)
    rw [owned_actor hfr, List.nodup_append] at hn
    exact (List.nodup_cons.mp hn.1).1 List.mem_cons_self
  refine h.control hi hs hfr (by simp) (m := [_]) rfl (.refl _) rfl hsame rfl rfl (fun u hu => ?_)
    ((h.data.same hsame).over hheld hnone.1 hnone.2) rfl (fun _ => rfl) (fun _ _ => .inl)
    (.one (fun r hirt => ?_) rfl ?_ (by simp) (by simp) rfl rfl rfl rfl)
  · have hut : u ≠ t := by
      rintro rfl
      exact hu (mem_owns_of_holds rfl)
    simp [hut]
  · exact ⟨(hr r hirt).1, fun hs => hs.elim (hne r hirt) (hr r hirt).2.1⟩
  · rintro u irt' ⟨⟩
    exact .inl rfl

/-- A one-way transaction was never a call. -/
theorem Sim.exec_buildOneWay {th : Option ThreadId} (h : Sim L s G) (hi : Inv L s) (hs : Sched L s)
    (hfr : s.frames a = .build x t none th :: rest) (hT : s.txn t = some T) (ho : T.oneWay = true) :
    Sim L (s.setFrames a (.procTransaction x t none :: rest)) G := by
  obtain ⟨-, hst, T', hT', -, -, hc, -⟩ := h.tasks.acts (hfr ▸ List.mem_cons_self)
  rw [hT] at hT'
  cases hT'
  have hn : ¬ G.call t := fun hcall => by
    rw [(hc.mp hcall).2] at ho
    cases ho
  exact h.setFrames hi hs hfr (by simp) [_] (.one ⟨fun hs => hn (hst.mp hs), fun hcall => absurd hcall hn⟩
    rfl (by simp) (by simp) (by simp) rfl rfl rfl rfl)

theorem Sim.exec_cleanupCall (h : Sim L s G) (hi : Inv L s) (hs : Sched L s)
    (hfr : s.frames a = .cleanupTransaction t :: rest) (hT : s.txn t = some T) (hb : T.buffer = some b)
    (hB : s.buf b = some B) (hn : B.targetNode.isSome) (ho : T.oneWay = false) :
    Sim L (s.setFrames a (.sendFailedReply t :: rest)) G := by
  have hst : ¬ G.stale t := h.tasks.acts (hfr ▸ List.mem_cons_self : .cleanupTransaction t ∈ s.frames a)
  exact h.setFrames hi hs hfr (by simp) [_] (.one ⟨(h.data.kind hT hb hB).2.mpr ⟨hn, ho⟩, hst⟩ rfl
    (by simp) (by simp) (by simp) rfl rfl rfl rfl)

/-- What has neither a caller nor a parent can be freed. -/
theorem Sim.toFree (h : Sim L s G) (hi : Inv L s) (hs : Sched L s) (hfr : s.frames a = act :: rest)
    (hact : ∀ x t, act ≠ .popTransaction x t) (howns : act.owns = [t]) (hst : ¬ G.stale t)
    (hT : s.txn t = some T) (hn : T.fromThread = none ∧ T.fromParent = none) :
    Sim L (s.setFrames a (.freeTransaction t :: rest)) (G.over t) := by
  have hsame : SameNet s (s.setFrames a (.freeTransaction t :: rest)) :=
    .of_eq rfl rfl (fun _ => rfl) fun _ => rfl
  have hheld := h.tasks.status (hfr ▸ List.mem_cons_self) (t := t) (by simp [howns])
  obtain ⟨h₁, h₂⟩ := h.data.fresh hT hst
  refine h.control hi hs hfr hact (m := [_]) rfl (.refl _) rfl hsame rfl rfl (fun u hu => ?_)
    ((h.data.same hsame).over hheld (h₁.trans hn.1) (h₂.trans hn.2)) rfl (fun _ => rfl) (fun _ _ => .inl)
    (.one (.inl rfl) howns.symm (by simp) (by simp) (by simp) rfl rfl rfl rfl)
  have hne : u ≠ t := by
    rintro rfl
    exact hu (by simp [howns])
  simp [hne]

/-! ### `binder_thread_read` -/

/-- In `binder_thread_read` one act may come in the place of another one. -/
theorem Turns.read (hreads : act.reads = true) (hsim : ActSim s' G' act') (howns : act'.owns = act.owns)
    (hunw : ∀ t irt, act' ≠ .unwind t irt) (hpop : ∀ x t, act' ≠ .popTransaction x t)
    (hpt : ∀ z u y, act' ≠ .procTransaction z u (some y))
    (hb : ∀ u, act'.brings = some u → act.brings = some u) (hl : act'.lands = true → rest' = [])
    (hid : ∀ x, act'.idles = some x → act.idles = some x ∨ G.net.stack x = [])
    (hq : ∀ x, act' = .wait x true ∨ act' = .sleep x true →
      act = .wait x true ∨ act = .sleep x true ∨ s.todo (.thread x) = []) :
    Turns L s s' G G' act [act'] rest' where
  sim := by simpa using hsim
  owns := by simpa using howns
  unwinds t irt h := absurd (List.mem_singleton.mp h).symm (hunw t irt)
  noPop x t h := hpop x t (List.mem_singleton.mp h).symm
  brings := by simpa using hb
  targets z u y h := hpt z u y (List.mem_singleton.mp h).symm
  lands act'' h hl' := by
    rw [List.mem_singleton] at h
    subst h
    rw [hl hl']
    rfl
  reads := by simp [hreads]
  after := List.pairwise_singleton ..
  idle := by simpa using hid
  quiet x h := hq x (h.imp (fun h => (List.mem_singleton.mp h).symm) fun h =>
    (List.mem_singleton.mp h).symm)

theorem Sim.exec_readRetry {procWork : Bool} (h : Sim L s G) (hi : Inv L s) (hs : Sched L s)
    (hfr : s.frames a = .readRetry x :: rest) (hp : procWork = true →
      (s.thread x).transactionStack = none ∧ s.todo (.thread x) = []) :
    Sim L (s.setFrames a (.wait x procWork :: rest)) G := by
  refine h.setFrames hi hs hfr (by simp) [_] (.read rfl trivial rfl (by simp) (by simp) (by simp)
    (by simp [Act.brings]) (by simp [Act.lands]) (fun z hz => .inr ?_) fun z hz => .inr (.inr ?_))
  · cases procWork with
    | false => cases hz
    | true =>
      cases hz
      exact h.stack_nil (hs.alive hi (hfr ▸ List.mem_cons_self) rfl) (hp rfl).1
  · rcases hz with hz | hz <;> cases hz
    exact (hp rfl).2

theorem Sim.exec_woken {procWork : Bool} (h : Sim L s G) (hi : Inv L s) (hs : Sched L s)
    (hfr : s.frames a = .wait x procWork :: rest) : Sim L (s.setFrames a (.read x procWork :: rest)) G := by
  refine h.setFrames hi hs hfr (by simp) [_] (.read rfl trivial rfl (by simp) (by simp) (by simp)
    (by simp [Act.brings]) (by simp [Act.lands]) (fun z hz => .inl ?_) (by simp))
  cases procWork <;> exact hz

theorem Sim.exec_waitThread (h : Sim L s G) (hi : Inv L s) (hs : Sched L s)
    (hfr : s.frames a = .wait x false :: rest) : Sim L (s.setFrames a (.sleep x false :: rest)) G :=
  h.setFrames hi hs hfr (by simp) [_] (.read rfl trivial rfl (by simp) (by simp) (by simp)
    (by simp [Act.brings]) (by simp [Act.lands]) (by simp [Act.idles]) (by simp))

theorem Sim.exec_waitProc (h : Sim L s G) (hi : Inv L s) (hs : Sched L s)
    (hfr : s.frames a = .wait x true :: rest) (hp : (s.thread x).processTodo = false) :
    Sim L ((s.setWaiting (L.procOf x) (x :: s.waitingThreads (L.procOf x))).setFrames a
      (.sleep x true :: rest)) G := by
  have hsame : SameNet s ((s.setWaiting (L.procOf x) (x :: s.waitingThreads (L.procOf x))).setFrames a
      (.sleep x true :: rest)) := .of_eq rfl rfl (fun _ => rfl) fun _ => rfl
  refine h.control hi hs hfr (by simp) (m := [_]) rfl (.refl _) rfl hsame rfl rfl (fun _ _ => .rfl)
    (h.data.same hsame) rfl (fun _ => rfl) (fun p z hz => ?_)
    (.read rfl trivial rfl (by simp) (by simp) (by simp) (by simp [Act.brings]) (by simp [Act.lands])
      (fun z hz => .inl hz) (fun z hz => .inl (by simpa [eq_comm] using hz)))
  rcases eq_or_ne p (L.procOf x) with rfl | hne
  · simp only [TxnState.setFrames_waitingThreads, TxnState.setWaiting_waitingThreads,
      Function.update_self, List.mem_cons] at hz
    rcases hz with rfl | hz
    · exact .inr hp
    · exact .inl hz
  · exact .inl (by simpa [hne] using hz)

theorem Sim.exec_wake {procWork : Bool} (h : Sim L s G) (hi : Inv L s) (hs : Sched L s)
    (hfr : s.frames a = .sleep x procWork :: rest) (hnew : m = [.wait x procWork] ∨ m = []) :
    Sim L ((s.setWaiting (L.procOf x) ((s.waitingThreads (L.procOf x)).filter (· ≠ x))).setFrames a
      (m ++ rest)) G := by
  have hsame : SameNet s ((s.setWaiting (L.procOf x) ((s.waitingThreads (L.procOf x)).filter (· ≠ x))
      ).setFrames a (m ++ rest)) := .of_eq rfl rfl (fun _ => rfl) fun _ => rfl
  refine h.control hi hs hfr (by simp) rfl (.refl _) rfl hsame rfl rfl (fun _ _ => .rfl)
    (h.data.same hsame) rfl (fun _ => rfl) (fun p z hz => .inl ?_) ?_
  · rcases eq_or_ne p (L.procOf x) with rfl | hne
    · have hz : z ∈ s.waitingThreads (L.procOf x) ∧ z ≠ x := by simpa using hz
      exact hz.1
    · simpa [hne] using hz
  · rcases hnew with rfl | rfl
    · refine .read rfl trivial rfl (by simp) (by simp) (by simp) (by simp [Act.brings])
        (by simp [Act.lands]) (fun z hz => .inl ?_) fun z hz => .inr (.inl ?_)
      · cases procWork <;> exact hz
      · rcases hz with hz | hz <;> cases hz
        rfl
    · exact .done rfl

theorem Sim.exec_readNothing {procWork : Bool} (h : Sim L s G) (hi : Inv L s) (hs : Sched L s)
    (hfr : s.frames a = .read x procWork :: rest) (hnew : m = [.readRetry x] ∨ m = []) :
    Sim L (s.setFrames a (m ++ rest)) G := by
  rcases hnew with rfl | rfl
  · exact h.setFrames hi hs hfr (by simp) _ (.read rfl trivial rfl (by simp) (by simp) (by simp)
      (by simp [Act.brings]) (by simp [Act.lands]) (by simp [Act.idles]) (by simp))
  · exact h.setFrames hi hs hfr (by simp) _ (.done rfl)

/-- Nothing that is left to do after a part of `binder_thread_read` works on a transaction. -/
theorem Tasks.rest_owns (h : Tasks L s G) (hfr : s.frames a = act :: rest) (hreads : act.reads = true) :
    rest.flatMap Act.owns = [] := by
  have := h.after a
  rw [hfr, List.pairwise_cons] at this
  exact List.flatMap_eq_nil_iff.mpr fun act' hact' => this.1 act' hact' hreads

theorem Sim.exec_deliver (h : Sim L s G) (hi : Inv L s) (hs : Sched L s)
    (hfr : s.frames a = .deliver x t :: rest) : Sim L (s.setFrames a [.copy x t]) G := by
  have hsame : SameNet s (s.setFrames a [.copy x t]) := .of_eq rfl rfl (fun _ => rfl) fun _ => rfl
  have hst : ¬ G.stale t := h.tasks.acts (hfr ▸ List.mem_cons_self : .deliver x t ∈ s.frames a)
  exact h.control hi hs hfr (by simp) (m := [.copy x t]) rfl (List.nil_sublist _)
    (h.tasks.rest_owns hfr rfl).symm hsame rfl rfl (fun _ _ => .rfl) (h.data.same hsame) rfl
    (fun _ => rfl) (fun _ _ => .inl) (.read rfl hst rfl (by simp) (by simp) (by simp) (fun _ => id)
      (fun _ => rfl) (by simp [Act.idles]) (by simp))

theorem Sim.exec_deliverFail (h : Sim L s G) (hi : Inv L s) (hs : Sched L s)
    (hfr : s.frames a = .deliver x t :: rest) (hB : s.buf b = some B) (hrest : rest' = [] ∨ rest' = rest) :
    Sim L ((s.setBuf b (some { B with transaction := none })).setFrames a
      (.cleanupTransaction t :: .freeBuf b :: rest')) G := by
  have hsame : SameNet s ((s.setBuf b (some { B with transaction := none })).setFrames a
      (.cleanupTransaction t :: .freeBuf b :: rest')) := by
    refine ⟨fun _ => .inl rfl, fun {b' B'} hB' => ?_, fun _ => rfl, fun _ => rfl⟩
    rcases eq_or_ne b' b with rfl | hne
    · simp only [TxnState.setFrames_buf, TxnState.setBuf_buf, Function.update_self,
        Option.some.injEq] at hB'
      subst hB'
      exact ⟨B, hB, rfl, rfl⟩
    · exact ⟨B', by simpa [hne] using hB', rfl, rfl⟩
  have hst : ¬ G.stale t := h.tasks.acts (hfr ▸ List.mem_cons_self : .deliver x t ∈ s.frames a)
  refine h.control hi hs hfr (by simp) (m := [.cleanupTransaction t, .freeBuf b]) rfl ?_ ?_ hsame rfl rfl
    (fun _ _ => .rfl) (h.data.same hsame) rfl (fun _ => rfl) (fun _ _ => .inl) ?_
  · rcases hrest with rfl | rfl <;> simp
  · rcases hrest with rfl | rfl
    · exact (h.tasks.rest_owns hfr rfl).symm
    · rfl
  · constructor <;> simp [Act.owns, Act.holds, Act.refs, Act.brings, Act.lands, Act.reads, Act.idles]
    exact ⟨hst, trivial⟩

theorem Sim.exec_copy (h : Sim L s G) (hi : Inv L s) (hs : Sched L s)
    (hfr : s.frames a = .copy x t :: rest) (hT : s.txn t = some T) (hb : T.buffer = some b)
    (hB : s.buf b = some B) :
    Sim L ((s.setBuf b (some { B with allowUserFree := true })).setFrames a
      (.delivered x t B.targetNode.isNone :: rest)) G := by
  have hact : .copy x t ∈ s.frames a := hfr ▸ List.mem_cons_self
  have hst : ¬ G.stale t := h.tasks.acts hact
  have hnil : rest = [] := by
    have := h.tasks.lands hact rfl
    rw [hfr, List.cons.injEq] at this
    exact this.2
  subst hnil
  have hsame : SameNet s ((s.setBuf b (some { B with allowUserFree := true })).setFrames a
      [.delivered x t B.targetNode.isNone]) := by
    refine ⟨fun _ => .inl rfl, fun {b' B'} hB' => ?_, fun _ => rfl, fun _ => rfl⟩
    rcases eq_or_ne b' b with rfl | hne
    · simp only [TxnState.setFrames_buf, TxnState.setBuf_buf, Function.update_self,
        Option.some.injEq] at hB'
      subst hB'
      exact ⟨B, hB, rfl, rfl⟩
    · exact ⟨B', by simpa [hne] using hB', rfl, rfl⟩
  refine h.control hi hs hfr (by simp) (m := [_]) rfl (.refl _) rfl hsame rfl rfl
    (fun _ _ => .rfl) (h.data.same hsame) rfl (fun _ => rfl) (fun _ _ => .inl)
    (.read rfl ⟨hst, fun T' hT' => ?_⟩ rfl (by simp) (by simp) (by simp) (fun _ => id)
      (fun _ => rfl) (by simp [Act.idles]) (by simp))
  rw [show s.txn t = some T' from hT'] at hT
  cases hT
  rw [(h.data.kind hT' hb hB).2]
  cases B.targetNode <;> simp

theorem Sim.exec_copyFail (h : Sim L s G) (hi : Inv L s) (hs : Sched L s)
    (hfr : s.frames a = .copy x t :: rest) : Sim L (s.setFrames a (.cleanupTransaction t :: rest)) G := by
  have hst : ¬ G.stale t := h.tasks.acts (hfr ▸ List.mem_cons_self : .copy x t ∈ s.frames a)
  exact h.setFrames hi hs hfr (by simp) [_] (.one hst rfl (by simp) (by simp) (by simp) rfl rfl rfl rfl)

/-! ### Buffers and nodes -/

/-- A step that changes a buffer or a node, and works on no transaction. -/
theorem Sim.exec_other (h : Sim L s G) (hi : Inv L s) (hs : Sched L s) (hfr : s.frames a = act :: rest)
    (hact : ∀ x t, act ≠ .popTransaction x t) (howns : act.owns = []) (hsame : SameNet s s')
    (hfr' : s'.frames = Function.update s.frames a (m ++ rest)) (htodo : s'.todo = s.todo)
    (hthr : s'.thread = s.thread) (hwait : s'.waitingThreads = s.waitingThreads)
    (hnew : m = [] ∨ ∃ b, m = [.freeBufAsync b] ∨ m = [.freeBufRelease b]) : Sim L s' G := by
  refine h.control hi hs hfr hact hfr' (.refl _) rfl hsame rfl rfl (fun _ _ => .rfl) (h.data.same hsame)
    htodo (fun _ => by rw [hthr]) (fun _ _ hx => .inl (by rwa [hwait] at hx)) ?_
  rcases hnew with rfl | ⟨b, rfl | rfl⟩
  · exact .done howns
  · exact .one trivial (by rw [howns]; rfl) (by simp) (by simp) (by simp) rfl rfl rfl rfl
  · exact .one trivial (by rw [howns]; rfl) (by simp) (by simp) (by simp) rfl rfl rfl rfl

theorem SameNet.setBuf {B' : Option Buffer} (hB : s.buf b = some B)
    (h : ∀ B₁, B' = some B₁ → B₁.proc = B.proc ∧ B₁.targetNode = B.targetNode) :
    SameNet s (s.setBuf b B') := by
  refine ⟨fun _ => .inl rfl, fun {b' B₁} hB₁ => ?_, fun _ => rfl, fun _ => rfl⟩
  rcases eq_or_ne b' b with rfl | hne
  · rw [TxnState.setBuf_buf, Function.update_self] at hB₁
    exact ⟨B, hB, (h B₁ hB₁).1, (h B₁ hB₁).2⟩
  · exact ⟨B₁, by simpa [hne] using hB₁, rfl, rfl⟩

theorem SameNet.setFrames (hs : SameNet s s') : SameNet s (s'.setFrames a acts) :=
  ⟨hs.txn, hs.buf, hs.stack, hs.dead⟩

theorem Sim.exec_freeBufLinked (h : Sim L s G) (hi : Inv L s) (hs : Sched L s)
    (hfr : s.frames a = .freeBuf b :: rest) (hB : s.buf b = some B) (hT : s.txn t = some T) :
    Sim L (((s.setTxn t (some { T with buffer := none })).setBuf b
      (some { B with transaction := none })).setFrames a (.freeBufAsync b :: rest)) G := by
  have hsame : SameNet s ((s.setTxn t (some { T with buffer := none })).setBuf b
      (some { B with transaction := none })) := by
    have h₁ : SameNet s (s.setBuf b (some { B with transaction := none })) :=
      .setBuf hB (by rintro _ ⟨⟩; exact ⟨rfl, rfl⟩)
    refine ⟨fun u => ?_, h₁.buf, fun _ => rfl, fun _ => rfl⟩
    rcases eq_or_ne u t with rfl | hne
    · exact .inr ⟨T, hT, by simp⟩
    · exact .inl (by simp [hne])
  exact h.exec_other hi hs hfr (by simp) rfl hsame.setFrames (m := [_]) rfl rfl rfl rfl
    (.inr ⟨b, .inl rfl⟩)

/-! ### Work that leaves a list -/

/-- The first transaction on the list of a thread that has taken one off. -/
theorem Sim.first_tail {w : Work} (h : Sim L s G) (hl : s.todo l = w :: ws)
    (htodo : s'.todo = Function.update s.todo l ws) (hd : (s.thread x).isDead = false)
    (hx : G.net.stack x = []) (hc : G.call t) (ht : .transaction t ∈ s'.todo (.thread x)) :
    (s'.todo (.thread x)).head? = some (.transaction t) := by
  rw [htodo] at ht ⊢
  rcases eq_or_ne (.thread x) l with rfl | hne
  · rw [Function.update_self] at ht
    have hhead := h.idle.first hd hx hc (by rw [hl]; exact List.mem_cons_of_mem _ ht)
    rw [hl] at hhead
    cases hhead
    have hn := h.tasks.placed.nodup (.list (.thread x))
    rw [TxnState.owned, hl] at hn
    have hmem : t ∈ ws.filterMap Work.txn? := List.mem_filterMap.mpr ⟨_, ht, rfl⟩
    exact absurd hmem (List.nodup_cons.mp hn).1
  · rw [Function.update_of_ne hne] at ht ⊢
    exact h.idle.first hd hx hc ht

/-- A task takes the first work off a list; if it is the thread of the list, it may stop to look at
the list of its own thread. -/
theorem Idle.pop {w : Work} (h : Sim L s G) (hl : s.todo l = w :: ws)
    (htodo : s'.todo = Function.update s.todo l ws) (hfr : s.frames a = act :: rest)
    (hfr' : s'.frames = Function.update s.frames a (m ++ rest)) (hsame : SameNet s s')
    (hwait : s'.waitingThreads = s.waitingThreads)
    (hproc : ∀ x, (s'.thread x).processTodo = (s.thread x).processTodo ∨
      (s'.thread x).processTodo = ((s.thread x).processTodo && !(s'.todo (.thread x)).isEmpty))
    (hnew : ∀ act' ∈ m, ∀ x, act'.idles = some x → act.idles = some x)
    (hq : ∀ x, .wait x true ∉ m ∧ .sleep x true ∉ m) : Idle s' G := by
  refine h.idle.turn hfr' (fun act' h' => hfr ▸ List.mem_cons_of_mem _ h') (fun _ _ => id)
    (fun x act' hx hact' hid => ?_) (fun x t hd hx hc ht => ?_) (fun x _ hq hp => ?_)
    (fun x _ hn => ?_) fun p x hx => ?_
  · subst hx
    exact h.idle.idle (hfr ▸ List.mem_cons_self) (hnew act' hact' x hid)
  · exact h.first_tail hl htodo (by rwa [hsame.dead] at hd) hx hc ht
  · have hempty : (s.todo (.thread x)) = [] → s'.todo (.thread x) = [] := by
      intro he
      rw [htodo]
      rcases eq_or_ne (.thread x) l with rfl | hne
      · rw [hl] at he
        cases he
      · rwa [Function.update_of_ne hne]
    rcases hproc x with hp' | hp'
    · exact hempty (hq (by rw [← hp', hp]))
    · rw [hp] at hp'
      cases hpt : (s.thread x).processTodo with
      | false => exact hempty (hq hpt)
      | true =>
        rw [hpt] at hp'
        simpa using hp'
  · exact absurd hn (not_or.mpr (hq x))
  · rw [hwait] at hx
    have := h.idle.waiting hx
    rcases hproc x with hp' | hp' <;> rw [hp', this]
    rfl

/-- What a task takes off a list and does not deliver. -/
theorem Sim.exec_popOther {k : WorkType} (h : Sim L s G) (hi : Inv L s) (hs : Sched L s)
    (hfr : s.frames a = act :: rest) (hact : ∀ x t, act ≠ .popTransaction x t)
    (hl : s.todo l = .other k :: ws) (htodo : s'.todo = Function.update s.todo l ws)
    (hfr' : s'.frames = Function.update s.frames a (m ++ rest)) (hsame : SameNet s s')
    (hwait : s'.waitingThreads = s.waitingThreads)
    (hproc : ∀ x, (s'.thread x).processTodo = (s.thread x).processTodo ∨
      (s'.thread x).processTodo = ((s.thread x).processTodo && !(s'.todo (.thread x)).isEmpty))
    (hnew : m = [] ∨ m = [act]) (howns : act.owns = []) (hsim : ActSim s' G act)
    (hq : ∀ x, act ≠ .wait x true ∧ act ≠ .sleep x true) : Sim L s' G := by
  have hsub : ∀ l' t, .transaction t ∈ s'.todo l' → .transaction t ∈ s.todo l' := by
    intro l' t ht
    rw [htodo] at ht
    rcases eq_or_ne l' l with rfl | hne
    · rw [Function.update_self] at ht
      rw [hl]
      exact List.mem_cons_of_mem _ ht
    · rwa [Function.update_of_ne hne] at ht
  have hmem : ∀ act' ∈ m, act' = act := by
    rcases hnew with rfl | rfl <;> simp
  have hcome {x : ThreadId} {u : TxnId} (hu : Coming s' G.call x u) : Coming s G.call x u :=
    (coming_step (P := False) hfr hfr' (.refl _) (fun hd => by rwa [hsame.dead] at hd) id
      (fun ht => .inl (hsub _ _ ht)) (fun act' h' hb _ => .inl (hmem act' h' ▸ hb))
      (fun z h' => by rw [← hmem _ h'] at howns; simp [Act.owns, Act.holds] at howns)
      hu).resolve_right id
  have hlist : ∀ l', (s'.todo l').filterMap Work.txn? = (s.todo l').filterMap Work.txn? := by
    intro l'
    rw [htodo]
    rcases eq_or_ne l' l with rfl | hne
    · rw [Function.update_self, hl]
      rfl
    · rw [Function.update_of_ne hne]
  have hno {u : TxnId} (hb : act.brings = some u) : False := by
    have := mem_owns_of_brings hb
    rw [howns] at this
    cases this
  refine h.turn hi hs hfr hact hfr' (.refl _) hsame rfl rfl (fun _ _ => .rfl) (h.data.same hsame)
    (h.ok.mono fun x u hu => hcome hu) (fun x u _ hu => hcome hu)
    (owned_same h.tasks hfr hlist hfr' (by rcases hnew with rfl | rfl <;> simp [howns]))
    (fun l' t ht => h.tasks.queued (hsub l' t ht)) ?_ ?_
  · have hfr₀ := h.tasks.after a
    rw [hfr] at hfr₀
    constructor
    · intro act' h'
      rw [hmem act' h']
      exact hsim
    · intro t irt h'
      rw [← hmem _ h'] at howns
      cases howns
    · intro x t h'
      exact absurd (hmem _ h').symm (hact x t)
    · intro x act' t T _ h' hb
      rw [hmem act' h'] at hb
      exact (hno hb).elim
    · intro act' h' hland
      rw [hmem act' h'] at hland
      have := h.tasks.lands (hfr ▸ List.mem_cons_self) hland
      rw [hfr] at this
      cases this
      rcases hnew with rfl | rfl
      · cases h'
      · rw [hmem act' h']
        rfl
    · rcases hnew with rfl | rfl
      · exact hfr₀.tail
      · exact hfr₀
  · refine .pop h hl htodo hfr hfr' hsame hwait hproc (fun act' h' x hid => hmem act' h' ▸ hid) fun x => ?_
    exact ⟨fun h' => (hq x).1 (hmem _ h').symm, fun h' => (hq x).2 (hmem _ h').symm⟩

/-! ### Transactions that move from list to list -/

/-- Threads that wait, after a step that leaves the work lists of the threads. -/
theorem Idle.calm (h : Idle s G) (hfr' : s'.frames = Function.update s.frames a (m ++ rest'))
    (hrest : ∀ act ∈ rest', act ∈ s.frames a)
    (htodo : ∀ x, s'.todo (.thread x) = s.todo (.thread x))
    (hp : ∀ x, (s'.thread x).processTodo = (s.thread x).processTodo)
    (hw : ∀ p x, x ∈ s'.waitingThreads p → x ∈ s.waitingThreads p)
    (hdead : ∀ x, (s'.thread x).isDead = false → (s.thread x).isDead = false)
    (hstk : ∀ x, (∃ act ∈ s.frames (.thread x), act.idles = some x) → G.net.stack x = [] →
      G'.net.stack x = [])
    (hstk' : ∀ x u, (s'.thread x).isDead = false → G'.net.stack x = [] → G'.call u →
      .transaction u ∈ s.todo (.thread x) → G.call u ∧ G.net.stack x = [])
    (hnew : ∀ act ∈ m, act.idles = none) : Idle s' G' := by
  refine h.turn hfr' hrest hstk (fun x act _ hact hid => ?_) (fun x u hd hx hc hu => ?_)
    (fun x _ hq hp' => ?_) (fun x _ hn => ?_) fun p x hx => ?_
  · rw [hnew act hact] at hid
    cases hid
  · rw [htodo] at hu ⊢
    obtain ⟨hc, hx⟩ := hstk' x u hd hx hc hu
    exact h.first (hdead x hd) hx hc hu
  · rw [htodo]
    exact hq (by rwa [hp] at hp')
  · rcases hn with hn | hn <;> cases hnew _ hn
  · rw [hp]
    exact h.waiting (hw p x hx)

/-- Threads that wait, after a step that gives work to the thread `y`. -/
theorem Idle.put {w : Work} (h : Idle s G)
    (hfr' : s'.frames = Function.update s.frames a (m ++ rest'))
    (hrest : ∀ act ∈ rest', act ∈ s.frames a)
    (htodo : s'.todo = Function.update s.todo (.thread y) (s.todo (.thread y) ++ [w]))
    (hy : (s'.thread y).processTodo = true)
    (hp : ∀ x, x ≠ y → (s'.thread x).processTodo = (s.thread x).processTodo)
    (hw : ∀ p x, x ∈ s'.waitingThreads p → x ≠ y ∧ x ∈ s.waitingThreads p)
    (hdead : ∀ x, (s'.thread x).isDead = false → (s.thread x).isDead = false)
    (hstk : ∀ x, (∃ act ∈ s.frames (.thread x), act.idles = some x) → G.net.stack x = [] →
      G'.net.stack x = [])
    (hstk' : ∀ x u, (s'.thread x).isDead = false → G'.net.stack x = [] → G'.call u →
      .transaction u ∈ s.todo (.thread x) → G.call u ∧ G.net.stack x = [])
    (hfirst : ∀ u, w = .transaction u → (s'.thread y).isDead = false → G'.net.stack y = [] →
      G'.call u → s.todo (.thread y) = [])
    (hnew : ∀ act ∈ m, act.idles = none) : Idle s' G' := by
  have hne : ∀ x, x ≠ y → s'.todo (.thread x) = s.todo (.thread x) := by
    intro x hx
    rw [htodo, Function.update_of_ne (by simpa using hx)]
  have heq : s'.todo (.thread y) = s.todo (.thread y) ++ [w] := by
    rw [htodo, Function.update_self]
  refine h.turn hfr' hrest hstk (fun x act _ hact hid => ?_) (fun x u hd hx hc hu => ?_)
    (fun x _ hq hp' => ?_) (fun x _ hn => ?_) fun p x hx => ?_
  · rw [hnew act hact] at hid
    cases hid
  · rcases eq_or_ne x y with rfl | hxy
    · rw [heq, List.mem_append, List.mem_singleton] at hu
      rw [heq]
      rcases hu with hu | hu
      · obtain ⟨hc, hx⟩ := hstk' x u hd hx hc hu
        have := h.first (hdead x hd) hx hc hu
        rw [List.head?_append, this]
        rfl
      · rw [hfirst u hu.symm hd hx hc, ← hu]
        rfl
    · rw [hne x hxy] at hu ⊢
      obtain ⟨hc, hx⟩ := hstk' x u hd hx hc hu
      exact h.first (hdead x hd) hx hc hu
  · rcases eq_or_ne x y with rfl | hxy
    · rw [hy] at hp'
      cases hp'
    · rw [hne x hxy]
      exact hq (by rwa [hp x hxy] at hp')
  · rcases hn with hn | hn <;> cases hnew _ hn
  · obtain ⟨hxy, hx⟩ := hw p x hx
    rw [hp x hxy]
    exact h.waiting hx

/-- A thread that is waiting for work of its process serves nobody and has no work. -/
theorem Sim.waiting_idle (h : Sim L s G) (hs : Sched L s) {p : ProcId} (hy : y ∈ s.waitingThreads p) :
    G.net.stack y = [] ∧ s.todo (.thread y) = [] ∧ ∀ u, ¬ Coming s G.call y u := by
  obtain ⟨-, r, hr⟩ := hs.waiting hy
  have hact : .sleep y true ∈ s.frames (.thread y) := by rw [hr]; exact List.mem_cons_self
  have hnil := h.idle.idle hact rfl
  have htodo := h.idle.quiet (.inr hact) (h.idle.waiting hy)
  refine ⟨hnil, htodo, ?_⟩
  rintro u ⟨hd, hc, hu⟩
  rcases hu with hu | ⟨act, hact', hb⟩ | ⟨a, z, hp⟩
  · rw [htodo] at hu
    cases hu
  · rw [hr, List.mem_cons] at hact'
    rcases hact' with rfl | hact'
    · cases hb
    · have := List.flatMap_eq_nil_iff.mp (h.tasks.rest_owns hr rfl) act hact'
      have hm := mem_owns_of_brings hb
      rw [this] at hm
      cases hm
  · exact ((h.tasks.acts hp).2 hc).2 y rfl hd hnil

/-- `binder_proc_transaction` puts the transaction on a list. -/
theorem Sim.exec_accepted {th : Option ThreadId} {n : NodeId} (h : Sim L s G) (hi : Inv L s)
    (hs : Sched L s) (hfr : s.frames a = .procTransaction x t th :: rest) (hT : s.txn t = some T)
    (hb : T.buffer = some b) (hB : s.buf b = some B) (hn : B.targetNode = some n)
    (he : s.binderProcTransaction t T.oneWay n B.proc th = some (true, s₁)) :
    Sim L (s₁.setFrames a rest) G := by
  have hact : .procTransaction x t th ∈ s.frames a := hfr ▸ List.mem_cons_self
  obtain ⟨hst, hcall⟩ := h.tasks.acts hact
  obtain ⟨hst₁, -, -, l₀, htodo₀, -⟩ := binderProcTransaction_spec he
  have hfr' : (s₁.setFrames a rest).frames = Function.update s.frames a ([] ++ rest) := by
    rw [← hst₁.frames]
    rfl
  have hsame : SameNet s (s₁.setFrames a rest) := .of_eq hst₁.txn hst₁.buf hst₁.stack hst₁.threadDead
  have hq : ∀ l u, .transaction u ∈ (s₁.setFrames a rest).todo l → ¬ G.stale u := by
    intro l u hu
    rw [TxnState.setFrames_todo, htodo₀] at hu
    rcases eq_or_ne l l₀ with rfl | hne
    · rw [Function.update_self, List.mem_append, List.mem_singleton] at hu
      rcases hu with hu | hu
      · exact h.tasks.queued hu
      · cases hu
        exact hst
    · rw [Function.update_of_ne hne] at hu
      exact h.tasks.queued hu
  have hnew : NewActs L (s₁.setFrames a rest) G a [] ([] ++ rest) := .nil h.tasks hfr
  have hin : ∀ act ∈ rest, act ∈ s.frames a := fun act h' => hfr ▸ List.mem_cons_of_mem _ h'
  have hstep (l : WorkList) (htodo : s₁.todo = Function.update s.todo l (s.todo l ++ [Work.transaction t]))
      (hok : Ok G.net (Coming (s₁.setFrames a rest) G.call))
      (hcome : ∀ z u, (∃ act ∈ s.frames (.thread z), act.calls = true) →
        Coming (s₁.setFrames a rest) G.call z u → Coming s G.call z u)
      (hidle : Idle (s₁.setFrames a rest) G) : Sim L (s₁.setFrames a rest) G :=
    h.turn hi hs hfr (by simp) hfr' (.refl _) hsame rfl rfl (fun _ _ => .rfl) (h.data.same hsame) hok
      hcome (owned_put h.tasks hfr htodo hfr' rfl) hq hnew hidle
  -- a list of no thread
  have hlist (l : WorkList) (hl : ∀ z, l ≠ .thread z)
      (htodo : s₁.todo = Function.update s.todo l (s.todo l ++ [Work.transaction t]))
      (hthr : s₁.thread = s.thread) (hw : s₁.waitingThreads = s.waitingThreads) :
      Sim L (s₁.setFrames a rest) G := by
    have hthread : ∀ z, s₁.todo (.thread z) = s.todo (.thread z) := fun z => by
      rw [htodo, Function.update_of_ne (hl z).symm]
    have hcome {z : ThreadId} {u : TxnId} (hu : Coming (s₁.setFrames a rest) G.call z u) :
        Coming s G.call z u :=
      (coming_step (P := False) hfr hfr' (.refl _) (fun hd => by rwa [hsame.dead] at hd) id
        (fun ht => .inl (by rwa [TxnState.setFrames_todo, hthread] at ht)) (by simp) (by simp)
        hu).resolve_right id
    refine hstep l htodo (h.ok.mono fun z u hu => hcome hu) (fun z u _ hu => hcome hu) ?_
    exact h.idle.calm hfr' hin hthread (fun z => by rw [TxnState.setFrames_thread, hthr])
      (fun p z hz => by rwa [TxnState.setFrames_waitingThreads, hw] at hz)
      (fun z hd => by rwa [hsame.dead] at hd) (fun _ _ => id) (fun _ _ _ hx hc _ => ⟨hc, hx⟩) (by simp)
  -- the list of the thread `y`
  have hthread (y : ThreadId)
      (htodo : s₁.todo = Function.update s.todo (.thread y) (s.todo (.thread y) ++ [Work.transaction t]))
      (hy : (s₁.thread y).processTodo = true)
      (hp : ∀ z, z ≠ y → (s₁.thread z).processTodo = (s.thread z).processTodo)
      (hw : ∀ p z, z ∈ s₁.waitingThreads p → z ≠ y ∧ z ∈ s.waitingThreads p)
      (hto : G.call t → (s.thread y).isDead = false → Coming s G.call y t ∧ G.net.stack y ≠ [] ∨
        G.net.stack y = [] ∧ s.todo (.thread y) = [] ∧ ∀ u, ¬ Coming s G.call y u)
      (hcalls : ∀ act ∈ s.frames (.thread y), act.calls = true → Coming s G.call y t) :
      Sim L (s₁.setFrames a rest) G := by
    have hcome {z : ThreadId} {u : TxnId} (hu : Coming (s₁.setFrames a rest) G.call z u) :
        Coming s G.call z u ∨ (z = y ∧ u = t) := by
      refine coming_step hfr hfr' (.refl _) (fun hd => by rwa [hsame.dead] at hd) id (fun ht => ?_)
        (by simp) (by simp) hu
      rw [TxnState.setFrames_todo, htodo] at ht
      rcases eq_or_ne z y with rfl | hne
      · rw [Function.update_self, List.mem_append, List.mem_singleton] at ht
        exact ht.imp_right fun ht => ⟨rfl, Work.transaction.inj ht⟩
      · exact .inl (by rwa [Function.update_of_ne (by simpa using hne)] at ht)
    refine hstep (.thread y) htodo ?_ (fun z u hcalling hu => ?_) ?_
    · by_cases hct : G.call t ∧ (s.thread y).isDead = false
      · rcases hto hct.1 hct.2 with ⟨hc, -⟩ | ⟨hnil, -, hno⟩
        · refine h.ok.mono fun z u hu => (hcome hu).elim id ?_
          rintro ⟨rfl, rfl⟩
          exact hc
        · exact h.ok.addDue (h.tasks.status hact (t := t) (mem_owns_of_holds rfl)) (.inl ⟨hnil, hno⟩)
            fun z u hu => hcome hu
      · refine h.ok.mono fun z u hu => (hcome hu).elim id ?_
        rintro ⟨rfl, rfl⟩
        exact absurd ⟨hu.2.1, (hsame.dead z).symm.trans hu.1⟩ hct
    · obtain ⟨act, hact', hc⟩ := hcalling
      rcases hcome hu with hu | ⟨rfl, rfl⟩
      · exact hu
      · exact hcalls act hact' hc
    · refine h.idle.put hfr' hin htodo hy hp hw (fun z hd => by rwa [hsame.dead] at hd) (fun _ _ => id)
        (fun _ _ _ hx hc _ => ⟨hc, hx⟩) (fun u hu hd hx hc => ?_) (by simp)
      cases hu
      rw [hsame.dead] at hd
      rcases hto hc hd with ⟨-, hne⟩ | ⟨-, hnil, -⟩
      · exact absurd hx hne
      · exact hnil
  obtain ⟨-, ⟨-, -, -, rfl⟩ | ⟨-, ⟨y, rfl, ho, hd, rfl⟩ | ⟨rfl, y, ys, hw, rfl⟩ | ⟨rfl, -, rfl⟩⟩⟩ :=
    procTransaction_cases he
  · exact hlist (.node n) (by simp) (by simp) (by simp) (by simp)
  · have hcoming (hc : G.call t) : Coming s G.call y t := ⟨hd, hc, .inr (.inr ⟨a, x, hact⟩)⟩
    have hne (hc : G.call t) : G.net.stack y ≠ [] := (hcall hc).2 y rfl hd
    have hct : G.call t := (h.data.kind hT hb hB).2.mpr ⟨by rw [hn]; rfl, ho⟩
    refine hthread y rfl (by simp) (fun z hz => by simp [hz]) (fun p z hz => ⟨?_, hz⟩)
      (fun hc _ => .inl ⟨hcoming hc, hne hc⟩) (fun _ _ _ => hcoming hct)
    rintro rfl
    exact hne hct (h.waiting_idle hs hz).1
  · have hy : y ∈ s.waitingThreads B.proc := by rw [hw]; exact List.mem_cons_self
    have hnd := hs.nodup B.proc
    rw [hw, List.nodup_cons] at hnd
    refine hthread y (by simp) (by simp) (fun z hz => by simp [hz]) (fun p z hz => ?_)
      (fun _ _ => .inr (h.waiting_idle hs hy)) (fun act hact' hc => ?_)
    · have hz' : z ∈ Function.update s.waitingThreads B.proc ys p := by simpa using hz
      rcases eq_or_ne p B.proc with rfl | hne
      · rw [Function.update_self] at hz'
        refine ⟨?_, by rw [hw]; exact List.mem_cons_of_mem _ hz'⟩
        rintro rfl
        exact hnd.1 hz'
      · rw [Function.update_of_ne hne] at hz'
        refine ⟨?_, hz'⟩
        rintro rfl
        exact hne ((hs.waiting hz').1.symm.trans (hs.waiting hy).1)
    · obtain ⟨-, r, hr⟩ := hs.waiting hy
      have := hi.alone hact' hc
      rw [this, List.cons.injEq] at hr
      rw [hr.1] at hc
      cases hc
  · exact hlist (.proc B.proc) (by simp) (by simp) (by simp) (by simp)

/-- `binder_proc_transaction` fails: the call leaves its sender's stack, and is freed. -/
theorem Sim.exec_rejected {th : Option ThreadId} {n : NodeId} (h : Sim L s G) (hi : Inv L s)
    (hs : Sched L s) (hfr : s.frames a = .procTransaction x t th :: rest) (hT : s.txn t = some T)
    (hb : T.buffer = some b) (hB : s.buf b = some B) (hn : B.targetNode = some n)
    (he : s.binderProcTransaction t T.oneWay n B.proc th = some (false, s₁)) :
    ∃ G', Sim L (s₁.setFrames a
      ((if T.oneWay then [] else [.popTransaction x t]) ++ .unwind t none :: rest)) G' := by
  have hact : .procTransaction x t th ∈ s.frames a := hfr ▸ List.mem_cons_self
  obtain ⟨hst, hcall⟩ := h.tasks.acts hact
  obtain ⟨rfl, -⟩ := procTransaction_fails he
  have hsame (acts : List Act) : SameNet s ((s.setAsync T.oneWay n).setFrames a acts) :=
    .of_eq (by simp) (by simp) (by simp) (by simp)
  have hkind := (h.data.kind hT hb hB).2
  have hheld := h.tasks.status hact (t := t) (mem_owns_of_holds rfl)
  have hafter := h.tasks.after a
  rw [hfr, List.pairwise_cons] at hafter
  cases ho : T.oneWay with
  | true =>
    have hnc : ¬ G.call t := fun hc => by
      rw [(hkind.mp hc).2] at ho
      cases ho
    obtain ⟨h₁, h₂⟩ := h.data.fresh hT hst
    obtain ⟨h₃, h₄⟩ := h.data.plain hT hnc
    rw [ho] at hsame
    change ∃ G', Sim L ((s.setAsync true n).setFrames a (.unwind t none :: rest)) G'
    refine ⟨G.over t, h.control hi hs hfr (by simp) (m := [.unwind t none]) (by simp) (.refl _) rfl
      (hsame _) rfl rfl (fun u hu => ?_)
      ((h.data.same (hsame _)).over hheld (h₁.trans h₃) (h₂.trans h₄)) (by simp) (by simp)
      (fun _ _ hz => .inl (by simpa using hz)) ?_⟩
    · have hne : u ≠ t := by
        rintro rfl
        exact hu (mem_owns_of_holds rfl)
      simp [hne]
    · exact .one (by simp [ActSim]) rfl (by rintro u irt ⟨⟩; exact .inl rfl) (by simp) (by simp) rfl rfl
        rfl rfl
  | false =>
    rw [ho] at hsame
    change ∃ G', Sim L ((s.setAsync false n).setFrames a (.popTransaction x t :: .unwind t none :: rest)) G'
    have hc : G.call t := hkind.mpr ⟨by rw [hn]; rfl, ho⟩
    have hnp : ∀ y u, .popTransaction y u ∉ rest := fun y u hp => by
      obtain ⟨-, -, r, hr, -⟩ := h.tasks.pops (a := a) (hfr ▸ List.mem_cons_of_mem _ hp)
      rw [hfr] at hr
      cases hr
    have hfr' : ((s.setAsync false n).setFrames a (.popTransaction x t :: .unwind t none :: rest)).frames =
        Function.update s.frames a ([.popTransaction x t, .unwind t none] ++ rest) := by simp
    have hcome {z : ThreadId} {u : TxnId} (hu : Coming ((s.setAsync false n).setFrames a
        (.popTransaction x t :: .unwind t none :: rest)) G.call z u) : Coming s G.call z u :=
      (coming_step (P := False) hfr hfr' (.refl _) (fun hd => by rwa [(hsame _).dead] at hd) id
        (fun ht => .inl (by simpa using ht)) (by simp [Act.brings]) (by simp) hu).resolve_right id
    refine ⟨G, h.turn hi hs hfr (by simp) hfr' (.refl _) (hsame _) rfl rfl (fun _ _ => .rfl)
      (h.data.same (hsame _)) (h.ok.mono fun z u hu => hcome hu) (fun z u _ hu => hcome hu)
      (owned_same h.tasks hfr (by simp) hfr' rfl) (fun l u hu => h.tasks.queued (by simpa using hu)) ?_ ?_⟩
    · constructor
      · simp [ActSim]
      · intro u irt hu
        simp only [List.mem_cons, reduceCtorEq, Act.unwind.injEq, List.not_mem_nil, or_false,
          false_or] at hu
        obtain ⟨rfl, rfl⟩ := hu
        exact .inr ⟨x, rest, rfl⟩
      · intro z u hu
        simp only [List.mem_cons, reduceCtorEq, Act.popTransaction.injEq, List.not_mem_nil,
          or_false] at hu
        obtain ⟨rfl, rfl⟩ := hu
        exact ⟨(hcall hc).1, hst, rest, rfl, hnp⟩
      · intro z act' u T' _ h' hb
        simp only [List.mem_cons, List.not_mem_nil, or_false] at h'
        rcases h' with rfl | rfl <;> cases hb
      · simp [Act.lands]
      · simpa [Act.reads] using hafter.2
    · exact h.idle.calm hfr' (fun act h' => hfr ▸ List.mem_cons_of_mem _ h') (by simp) (by simp) (by simp)
        (by simp) (fun _ _ => id) (fun _ _ _ hx hc _ => ⟨hc, hx⟩) (by simp [Act.idles])

/-- The transaction that a thread takes off a list comes to it. -/
theorem Sim.exec_readTransaction {procWork : Bool} (h : Sim L s G) (hi : Inv L s) (hs : Sched L s)
    (hfr : s.frames a = .read x procWork :: rest) (hl : l = .thread x ∨ l = .proc (L.procOf x) ∧
      procWork = true ∧ s.todo (.thread x) = []) (htodo : s.todo l = .transaction t :: ws) :
    Sim L (((s.setTodo l ws).setThread x { s.thread x with processTodo := (s.thread x).processTodo &&
      !((s.setTodo l ws).todo (.thread x)).isEmpty }).setFrames a
        (.deliver x t :: .read x procWork :: rest)) G := by
  obtain ⟨s', hs'⟩ : ∃ s', s' = ((s.setTodo l ws).setThread x { s.thread x with
    processTodo := (s.thread x).processTodo && !((s.setTodo l ws).todo (.thread x)).isEmpty }).setFrames a
      (.deliver x t :: .read x procWork :: rest) := ⟨_, rfl⟩
  have hact : .read x procWork ∈ s.frames a := hfr ▸ List.mem_cons_self
  have ha := hi.self hact rfl
  subst ha
  have hfr' : s'.frames = Function.update s.frames (.thread x)
      ([.deliver x t, .read x procWork] ++ rest) := by rw [hs']; rfl
  have htodo' : s'.todo = Function.update s.todo l ws := by rw [hs']; rfl
  have hthr (z : ThreadId) : (s'.thread z).transactionStack = (s.thread z).transactionStack ∧
      (s'.thread z).isDead = (s.thread z).isDead := by
    rw [hs']
    rcases eq_or_ne z x with rfl | hne
    · simp
    · simp [hne]
  have hsame : SameNet s s' := .of_eq (by rw [hs']; rfl) (by rw [hs']; rfl) (fun z => (hthr z).1)
    fun z => (hthr z).2
  have hmem : .transaction t ∈ s.todo l := by rw [htodo]; exact List.mem_cons_self
  have hsub : ∀ l' u, .transaction u ∈ s'.todo l' → .transaction u ∈ s.todo l' := by
    intro l' u hu
    rw [htodo'] at hu
    rcases eq_or_ne l' l with rfl | hne
    · rw [Function.update_self] at hu
      rw [htodo]
      exact List.mem_cons_of_mem _ hu
    · rwa [Function.update_of_ne hne] at hu
  have hrest := h.tasks.rest_owns hfr rfl
  have hrest' : ∀ act ∈ rest, act.owns = [] := List.flatMap_eq_nil_iff.mp hrest
  have hcome {z : ThreadId} {u : TxnId} (hu : Coming s' G.call z u) :
      Coming s G.call z u ∨ (z = x ∧ u = t) := by
    refine coming_step hfr hfr' (.refl _) (fun hd => by rwa [hsame.dead] at hd) id
      (fun ht => .inl (hsub _ _ ht)) (fun act' h' hb hz => ?_) (by simp) hu
    cases hz
    simp only [List.mem_cons, List.not_mem_nil, or_false] at h'
    rcases h' with rfl | rfl
    · exact .inr ⟨rfl, (Option.some.inj hb).symm⟩
    · exact .inl hb
  rw [← hs']
  refine h.turn hi hs hfr (by simp) hfr' (.refl _) hsame rfl rfl (fun _ _ => .rfl) (h.data.same hsame) ?_
    (fun z u hcalling hu => (hcome hu).elim id ?_)
    (owned_get h.tasks hfr htodo htodo' hfr' rfl) (fun l' u hu => h.tasks.queued (hsub l' u hu)) ?_ ?_
  · by_cases hct : G.call t
    · rcases hl with rfl | ⟨-, rfl, hnil⟩
      · refine h.ok.mono fun z u hu => (hcome hu).elim id ?_
        rintro ⟨rfl, rfl⟩
        exact ⟨(hsame.dead z).symm.trans hu.1, hct, .inl hmem⟩
      · have hstk := h.idle.idle hact rfl
        refine h.ok.addDue (h.tasks.status_todo hmem) (.inl ⟨hstk, fun u hu => ?_⟩)
          fun z u hu => hcome hu
        obtain ⟨hd, hc, hu⟩ := hu
        rcases hu with hu | ⟨act, hact', hb⟩ | ⟨a, z, hp⟩
        · rw [hnil] at hu
          cases hu
        · rw [hfr, List.mem_cons] at hact'
          have hm := mem_owns_of_brings hb
          rcases hact' with rfl | hact'
          · cases hb
          · rw [hrest' act hact'] at hm
            cases hm
        · exact ((h.tasks.acts hp).2 hc).2 x rfl hd hstk
    · refine h.ok.mono fun z u hu => (hcome hu).elim id ?_
      rintro ⟨rfl, rfl⟩
      exact absurd hu.2.1 hct
  · rintro ⟨rfl, rfl⟩
    obtain ⟨act, hact', hc⟩ := hcalling
    have := hi.alone hact' hc
    rw [hfr, List.cons.injEq] at this
    rw [← this.1] at hc
    cases hc
  · have hafter := h.tasks.after (.thread x)
    rw [hfr, List.pairwise_cons] at hafter
    constructor
    · simp only [List.mem_cons, List.not_mem_nil, or_false, forall_eq_or_imp, forall_eq]
      exact ⟨h.tasks.queued hmem, trivial⟩
    · simp
    · simp
    · rintro z act' u T ⟨⟩ h' hb hT
      simp only [List.mem_cons, List.not_mem_nil, or_false] at h'
      rcases h' with rfl | rfl
      · cases hb
        obtain ⟨T', b, B, hlive, -, hat⟩ := hi.live (p := .list l)
          (List.mem_filterMap.mpr ⟨_, hmem, rfl⟩)
        obtain ⟨U, hU, he⟩ := hsame.of_some hT
        rw [he.toProc]
        have hU' := hlive.txn
        rw [hU] at hU'
        cases hU'
        rw [(h.data.kind hU hlive.buffer hlive.buf).1]
        rcases hl with rfl | ⟨rfl, -⟩
        · exact congrArg some hat.symm
        · exact congrArg some hat.symm
      · cases hb
    · simp [Act.lands]
    · refine List.pairwise_cons.mpr ⟨fun act' h' _ => ?_, List.pairwise_cons.mpr hafter⟩
      rcases List.mem_cons.mp h' with rfl | h'
      · rfl
      · exact hrest' act' h'
  · refine .pop h htodo htodo' hfr hfr' hsame (by rw [hs']; rfl) (fun z => ?_) ?_ (by simp)
    · rw [hs']
      rcases eq_or_ne z x with rfl | hne
      · exact .inr (by simp)
      · exact .inl (by simp [hne])
    · simp [Act.idles]

theorem Sim.exec_releaseTransaction (h : Sim L s G) (hi : Inv L s) (hs : Sched L s)
    (hfr : s.frames a = .releaseWork l :: rest) (htodo : s.todo l = .transaction t :: ws) :
    Sim L ((s.setTodo l ws).setFrames a (.cleanupTransaction t :: .releaseWork l :: rest)) G := by
  have hmem : .transaction t ∈ s.todo l := by rw [htodo]; exact List.mem_cons_self
  have hfr' : ((s.setTodo l ws).setFrames a (.cleanupTransaction t :: .releaseWork l :: rest)).frames =
      Function.update s.frames a ([.cleanupTransaction t, .releaseWork l] ++ rest) := rfl
  have hsub : ∀ l' u, .transaction u ∈ (s.setTodo l ws).todo l' → .transaction u ∈ s.todo l' := by
    intro l' u hu
    rw [TxnState.setTodo_todo] at hu
    rcases eq_or_ne l' l with rfl | hne
    · rw [Function.update_self] at hu
      rw [htodo]
      exact List.mem_cons_of_mem _ hu
    · rwa [Function.update_of_ne hne] at hu
  have hsame : SameNet s ((s.setTodo l ws).setFrames a (.cleanupTransaction t :: .releaseWork l :: rest)) :=
    .of_eq rfl rfl (fun _ => rfl) fun _ => rfl
  have hcome {z : ThreadId} {u : TxnId} (hu : Coming ((s.setTodo l ws).setFrames a
      (.cleanupTransaction t :: .releaseWork l :: rest)) G.call z u) : Coming s G.call z u :=
    (coming_step (P := False) hfr hfr' (.refl _) id id (fun ht => .inl (hsub _ _ ht))
      (by simp [Act.brings]) (by simp) hu).resolve_right id
  refine h.turn hi hs hfr (by simp) hfr' (.refl _) hsame rfl rfl (fun _ _ => .rfl) (h.data.same hsame)
    (h.ok.mono fun z u hu => hcome hu) (fun z u _ hu => hcome hu)
    (owned_get h.tasks hfr htodo rfl hfr' rfl) (fun l' u hu => h.tasks.queued (hsub l' u hu)) ?_ ?_
  · have hafter := h.tasks.after a
    rw [hfr] at hafter
    constructor
    · simp only [List.mem_cons, List.not_mem_nil, or_false, forall_eq_or_imp, forall_eq]
      exact ⟨h.tasks.queued hmem, trivial⟩
    · simp
    · simp
    · intro z act' u T' _ h' hb
      simp only [List.mem_cons, List.not_mem_nil, or_false] at h'
      rcases h' with rfl | rfl <;> cases hb
    · simp [Act.lands]
    · exact List.pairwise_cons.mpr ⟨by simp [Act.reads], hafter⟩
  · exact .pop h htodo rfl hfr hfr' hsame rfl (fun z => .inl rfl) (by simp [Act.idles]) (by simp)

end Redroid.Binder.Txn
