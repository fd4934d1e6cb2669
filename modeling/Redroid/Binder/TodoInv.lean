import Redroid.Binder.Todo

/-!
# No sleep on deliverable work, no stuck error slot

* `Thread.Step`: what a step of the system can do to one thread; `exec_thread`: it does nothing else.
* `Awake`: `process_todo` is set if the list has work that the thread may not sleep on, and only if
  the list is not empty. It holds since node work, which others can take away, is always followed by
  other work of the thread (`processTodo_sound`).
* `Reported`: an error slot is set while its work is on the list, or on its way to user space. This
  holds in every run in which `put_user` of an error does not fail (`errorSlots_free`), and in no
  other (`returnError_stuck`).
-/

namespace Redroid.Binder.Todo

/-- What a step can do to a thread. `fault`: `put_user` of an error may fail. -/
inductive Thread.Step (fault : Bool) (T : Thread) : Thread → Prop
  | goto {p} : T.phase.inTransaction = false → p.inTransaction = false →
      (∀ e, T.phase.delivers e = false) → (∀ e, p.delivers e = false) → Step fault T (T.goto p)
  | transaction : T.phase = .user → T.cmd .returnError = .ok → Step fault T (T.goto .transaction)
  | incNode {n} : T.phase = .transaction →
      Step fault T ((T.dequeue (.node n)).enqueueDeferred (.node n))
  | dequeueNode {n} : Step fault T (T.dequeue (.node n))
  | complete {w id} : T.phase = .transaction → w = .complete true id →
      Step fault T ((T.enqueueDeferred w).goto (.sent true id))
  | completeNow {w id} : T.phase = .transaction → w = .complete false id →
      Step fault T ((T.enqueue w).goto (.sent false id))
  | finish {sync id} : T.phase = .sent sync id → Step fault T (T.goto .user)
  | targetDead {sync id} : T.phase = .sent sync id →
      Step fault T ((T.dequeue (.complete sync id)).goto .failing)
  | fail {c} : T.phase = .transaction ∨ T.phase = .failing → c ≠ .ok → T.cmd .returnError = .ok →
      Step fault T ((T.setError .returnError c).goto .user)
  | error {e c} : c ≠ .ok → T.cmd e = .ok → Step fault T (T.setError e c)
  | enqueue {w} : w = .transaction ∨ w = .clearDeathNotification → Step fault T (T.enqueue w)
  | take {procWork w ws p} : T.phase = .read procWork → T.todo = w :: ws →
      p.inTransaction = false → (∀ e, p.delivers e = true ↔ w = .error e) →
      Step fault T { T with todo := ws, processTodo := T.processTodo && !ws.isEmpty, phase := p }
  | takeProc {procWork p} : T.phase = .read procWork → T.todo = [] → p.inTransaction = false →
      (∀ e, p.delivers e = false) → Step fault T { T with processTodo := false, phase := p }
  | report {e procWork p} : T.phase = .deliver e procWork → p.inTransaction = false →
      (∀ e, p.delivers e = false) →
      Step fault T { T with cmd := Function.update T.cmd e .ok, phase := p }
  | fault {e procWork} : fault = true → T.phase = .deliver e procWork → Step fault T (T.goto .user)

/-- The steps in which `put_user` of an error does not fail. -/
def noFault (_ : TodoState) : TodoOp → Bool
  | .putUser _ ok _ => ok
  | _ => true

variable {L : Layout} {s s' : TodoState} {op : TodoOp} {x y : ThreadId} {T T' : Thread} {n : NodeId}
  {w : Work} {ws : List Work} {fault procWork room more : Bool} {e : Slot}

/-- The list of a process has no error on it. -/
def NoProcError (s : TodoState) : Prop := ∀ p e, .error e ∉ s.procTodo p

theorem NoProcError.dequeue (h : NoProcError s) : NoProcError (s.dequeue w) :=
  fun p e he => h p e (List.mem_of_mem_filter he)

/-! ## One thread -/

theorem dequeue_thread {U' : Thread} (hU' : (s.dequeue (.node n)).thread y = some U') :
    ∃ U, s.thread y = some U ∧ (U' = U ∨ Thread.Step fault U U') := by
  simp only [TodoState.dequeue, Option.map_eq_some_iff] at hU'
  obtain ⟨U, hU, rfl⟩ := hU'
  exact ⟨U, hU, .inr .dequeueNode⟩

/-- A step that is on one thread. -/
theorem setThread_thread (hx : s.thread x = some T) (hT : Thread.Step fault T T')
    {U' : Thread} (hU' : (s.setThread x T').thread y = some U') :
    ∃ U, s.thread y = some U ∧ (U' = U ∨ Thread.Step fault U U') := by
  by_cases hy : y = x
  · subst hy
    simp only [TodoState.setThread, Function.update_self, Option.some.injEq] at hU'
    subst hU'
    exact ⟨T, hx, .inr hT⟩
  · simp only [TodoState.setThread, Function.update_of_ne hy] at hU'
    exact ⟨U', hU', .inl rfl⟩

theorem readWork_cases (hp : NoProcError s)
    (hph : T.phase = .read procWork)
    (h : s.readWork L x T procWork room more = some s') :
    NoProcError s' ∧ ∃ T', Thread.Step fault T T' ∧ s'.thread = (s.setThread x T').thread := by
  have hgo {p : Phase} (h₁ : p.inTransaction = false) (h₂ : ∀ e, p.delivers e = false) :
      Thread.Step fault T (T.goto p) := .goto (by rw [hph]; rfl) h₁ (by rw [hph]; exact fun _ => rfl) h₂
  have hmore (p q : Phase) (hp : p.inTransaction = false ∧ ∀ e, p.delivers e = false)
      (hq : q.inTransaction = false ∧ ∀ e, q.delivers e = false) :
      (if more then p else q).inTransaction = false ∧
        ∀ e, (if more then p else q).delivers e = false := by
    cases more
    · exact hq
    · exact hp
  have huser : Phase.user.inTransaction = false ∧ ∀ e, Phase.user.delivers e = false :=
    ⟨rfl, fun _ => rfl⟩
  have hretry : Phase.retry.inTransaction = false ∧ ∀ e, Phase.retry.delivers e = false :=
    ⟨rfl, fun _ => rfl⟩
  have hread : (Phase.read procWork).inTransaction = false ∧
      ∀ e, (Phase.read procWork).delivers e = false := ⟨rfl, fun _ => rfl⟩
  simp only [TodoState.readWork] at h
  split at h
  · rename_i w ws hw
    split at h
    · cases h
      exact ⟨hp, _, hgo huser.1 huser.2, rfl⟩
    · cases h
      refine ⟨hp, _, ?_, rfl⟩
      split
      · rename_i e
        refine .take hph hw rfl fun e' => ?_
        simp [Phase.delivers]
      · rename_i hne
        obtain ⟨h₁, h₂⟩ := hmore _ _ hread huser
        refine .take hph hw h₁ fun e' => ?_
        rw [h₂ e']
        simpa using hne e'
  · rename_i hw
    split at h
    · rename_i w ws hlist
      split at h
      · cases h
        obtain ⟨h₁, h₂⟩ := hmore _ _ hretry huser
        exact ⟨hp, _, hgo h₁ h₂, rfl⟩
      split at h
      · cases h
        exact ⟨hp, _, hgo huser.1 huser.2, rfl⟩
      · cases h
        have hnot (e : Slot) : w ≠ .error e := by
          rintro rfl
          exact hp (L.procOf x) e (hlist ▸ List.mem_cons_self)
        refine ⟨fun p e he => ?_, _, ?_, rfl⟩
        · by_cases hpx : p = L.procOf x
          · subst hpx
            simp only [TodoState.setThread, Function.update_self] at he
            exact hp _ e (hlist ▸ List.mem_cons_of_mem _ he)
          · simp only [TodoState.setThread, Function.update_of_ne hpx] at he
            exact hp p e he
        · split
          · exact absurd rfl (hnot _)
          · obtain ⟨h₁, h₂⟩ := hmore _ _ hread huser
            exact .takeProc hph hw h₁ h₂
    · cases h
      obtain ⟨h₁, h₂⟩ := hmore _ _ hretry huser
      exact ⟨hp, _, hgo h₁ h₂, rfl⟩

/-- What a step does to a thread: it is new, or the step is one of `Thread.Step`. -/
theorem exec_thread (hp : NoProcError s) (h : s.exec L op = some s') :
    NoProcError s' ∧ ∀ y U', s'.thread y = some U' →
      (s.thread y = none ∧ U' = .new) ∨
        ∃ U, s.thread y = some U ∧ (U' = U ∨ Thread.Step (!noFault s op) U U') := by
  have one {x : ThreadId} {T T' : Thread} (hx : s.thread x = some T)
      (hT : Thread.Step (!noFault s op) T T') (hs : s' = s.setThread x T') :
      NoProcError s' ∧ ∀ y U', s'.thread y = some U' → (s.thread y = none ∧ U' = .new) ∨
        ∃ U, s.thread y = some U ∧ (U' = U ∨ Thread.Step (!noFault s op) U U') := by
    subst hs
    exact ⟨hp, fun y U' hU' => .inr (setThread_thread hx hT hU')⟩
  have same (hs : s'.thread = s.thread) (y : ThreadId) (U' : Thread) (hU' : s'.thread y = some U') :
      (s.thread y = none ∧ U' = .new) ∨
        ∃ U, s.thread y = some U ∧ (U' = U ∨ Thread.Step (!noFault s op) U U') := by
    rw [hs] at hU'
    exact .inr ⟨U', hU', .inl rfl⟩
  cases op with
  | newThread x =>
    obtain ⟨hn, h⟩ := guard_bind h
    cases h
    refine ⟨hp, fun y U' hU' => ?_⟩
    by_cases hy : y = x
    · subst hy
      simp only [TodoState.setThread, Function.update_self, Option.some.injEq] at hU'
      exact .inl ⟨by simpa using hn, hU'.symm⟩
    · simp only [TodoState.setThread, Function.update_of_ne hy] at hU'
      exact .inr ⟨U', hU', .inl rfl⟩
  | transaction x =>
    obtain ⟨T, hT, h⟩ := Option.bind_eq_some_iff.mp h
    obtain ⟨hph, h⟩ := guard_bind h
    obtain ⟨hc, h⟩ := guard_bind h
    cases h
    exact one hT (.transaction hph hc) rfl
  | incNode x n =>
    obtain ⟨T, hT, h⟩ := Option.bind_eq_some_iff.mp h
    obtain ⟨hph, h⟩ := guard_bind h
    cases h
    refine ⟨hp.dequeue, fun y U' hU' => .inr ?_⟩
    by_cases hy : y = x
    · subst hy
      simp only [TodoState.setThread, Function.update_self, Option.some.injEq] at hU'
      subst hU'
      exact ⟨T, hT, .inr (.incNode hph)⟩
    · simp only [TodoState.setThread, Function.update_of_ne hy] at hU'
      exact dequeue_thread hU'
  | complete x sync =>
    obtain ⟨T, hT, h⟩ := Option.bind_eq_some_iff.mp h
    obtain ⟨hph, h⟩ := guard_bind h
    cases h
    refine ⟨hp, fun y U' hU' => .inr (setThread_thread hT ?_ hU')⟩
    cases sync with
    | true => exact .complete hph rfl
    | false => exact .completeNow hph rfl
  | finish x =>
    obtain ⟨T, hT, h⟩ := Option.bind_eq_some_iff.mp h
    split at h
    · rename_i hph
      cases h
      exact one hT (.finish hph) rfl
    · cases h
  | targetDead x =>
    obtain ⟨T, hT, h⟩ := Option.bind_eq_some_iff.mp h
    split at h
    · rename_i hph
      cases h
      exact one hT (.targetDead hph) rfl
    · cases h
  | fail x c =>
    obtain ⟨T, hT, h⟩ := Option.bind_eq_some_iff.mp h
    obtain ⟨hph, h⟩ := guard_bind h
    obtain ⟨hc, h⟩ := guard_bind h
    obtain ⟨hr, h⟩ := guard_bind h
    cases h
    exact one hT (.fail hph hc hr) rfl
  | requestDeath x =>
    obtain ⟨T, hT, h⟩ := Option.bind_eq_some_iff.mp h
    obtain ⟨-, h⟩ := guard_bind h
    obtain ⟨hr, h⟩ := guard_bind h
    cases h
    exact one hT (.error (by simp) hr) rfl
  | clearDeath x =>
    obtain ⟨T, hT, h⟩ := Option.bind_eq_some_iff.mp h
    obtain ⟨-, h⟩ := guard_bind h
    obtain ⟨-, h⟩ := guard_bind h
    cases h
    exact one hT (.enqueue (.inr rfl)) rfl
  | deliverTo y =>
    obtain ⟨T, hT, h⟩ := Option.bind_eq_some_iff.mp h
    cases h
    exact one hT (.enqueue (.inl rfl)) rfl
  | sendFailedReply y c =>
    obtain ⟨T, hT, h⟩ := Option.bind_eq_some_iff.mp h
    obtain ⟨hc, h⟩ := guard_bind h
    split at h
    · rename_i hr
      cases h
      exact one hT (.error hc hr) rfl
    · cases h
      exact ⟨hp, same rfl⟩
  | procWork p w =>
    obtain ⟨hw, h⟩ := guard_bind h
    cases h
    refine ⟨fun q e he => ?_, same rfl⟩
    by_cases hq : q = p
    · subst hq
      simp only [Function.update_self, List.mem_append, List.mem_singleton] at he
      rcases he with he | rfl
      · exact hp q e he
      · simp [Work.isNode] at hw
    · simp only [Function.update_of_ne hq] at he
      exact hp q e he
  | dequeueNode n =>
    cases h
    exact ⟨hp.dequeue, fun y U' hU' => .inr (dequeue_thread hU')⟩
  | read x =>
    obtain ⟨T, hT, h⟩ := Option.bind_eq_some_iff.mp h
    obtain ⟨hph, h⟩ := guard_bind h
    cases h
    exact one hT (.goto (by rw [hph]; rfl) rfl (by rw [hph]; exact fun _ => rfl) fun _ => rfl) rfl
  | available x looper =>
    obtain ⟨T, hT, h⟩ := Option.bind_eq_some_iff.mp h
    obtain ⟨hph, h⟩ := guard_bind h
    cases h
    exact one hT (.goto (by rw [hph]; rfl) rfl (by rw [hph]; exact fun _ => rfl) fun _ => rfl) rfl
  | wait x needReturn again =>
    obtain ⟨T, hT, h⟩ := Option.bind_eq_some_iff.mp h
    split at h
    · rename_i procWork hph
      have hgo {p : Phase} (h₁ : p.inTransaction = false) (h₂ : ∀ e, p.delivers e = false) :
          Thread.Step (!noFault s (.wait x needReturn again)) T (T.goto p) :=
        .goto (by rw [hph]; rfl) h₁ (by rw [hph]; exact fun _ => rfl) h₂
      split at h
      · cases h
        exact one hT (hgo (p := .read procWork) rfl fun _ => rfl) rfl
      · cases again with
        | true =>
          cases h
          exact ⟨hp, same rfl⟩
        | false =>
          cases h
          exact one hT (hgo (p := .user) rfl fun _ => rfl) rfl
    · cases h
  | readWork x room more =>
    obtain ⟨T, hT, h⟩ := Option.bind_eq_some_iff.mp h
    split at h
    · rename_i procWork hph
      obtain ⟨hp', T', hT', hs⟩ := readWork_cases hp hph h
      refine ⟨hp', fun y U' hU' => .inr (setThread_thread hT hT' (hs ▸ hU'))⟩
    · cases h
  | putUser x ok more =>
    obtain ⟨T, hT, h⟩ := Option.bind_eq_some_iff.mp h
    split at h
    · rename_i e procWork hph
      split at h
      · rename_i hok
        cases h
        exact one hT (.fault (by simpa [noFault] using hok) hph) rfl
      · cases h
        cases more with
        | true => exact one hT (.report (p := .read procWork) hph rfl fun _ => rfl) rfl
        | false => exact one hT (.report (p := .user) hph rfl fun _ => rfl) rfl
    · cases h
  | release x =>
    obtain ⟨T, hT, h⟩ := Option.bind_eq_some_iff.mp h
    obtain ⟨-, h⟩ := guard_bind h
    cases h
    refine ⟨hp, fun y U' hU' => .inr ?_⟩
    by_cases hy : y = x
    · subst hy
      simp at hU'
    · simp only [Function.update_of_ne hy] at hU'
      exact ⟨U', hU', .inl rfl⟩
  | releaseWork i =>
    obtain ⟨ws, -, h⟩ := Option.bind_eq_some_iff.mp h
    cases h
    exact ⟨hp, same rfl⟩

/-! ## Sleeping and spinning -/

/-- The thread may sleep only if there is no work for it, and is kept awake only if there is some.
Node work is not the last on its list: others could take it away and leave nothing. -/
structure Awake (T : Thread) : Prop where
  awake : ∀ w ∈ T.todo, w.deferred = false → T.processTodo = true
  work : T.phase ≠ .transaction → T.phase ≠ .failing → T.processTodo = true → T.todo ≠ []
  last : T.phase ≠ .transaction → T.phase ≠ .failing → ∀ w ∈ T.todo.getLast?, w.isNode = false

/-- Without the work of a node, the last work is still there. -/
theorem dequeue_last {v : Work} (h : v ∈ T.todo.getLast?) (hv : v.isNode = false) :
    v ∈ (T.dequeue (.node n)).todo.getLast? := by
  obtain ⟨vs, hvs⟩ := List.getLast?_eq_some_iff.mp h
  have hne : v ≠ .node n := by
    rintro rfl
    cases hv
  simp [Thread.dequeue, hvs, List.filter_append, hne]

theorem Awake.new : Awake .new := ⟨by simp [Thread.new], by simp [Thread.new], by simp [Thread.new]⟩

/-- New work that is not a node's, with `process_todo`. -/
theorem awake_enqueue (hw : w.isNode = false) (p : Phase) :
    Awake ((T.enqueue w).goto p) where
  awake _ _ _ := rfl
  work _ _ _ := by simp [Thread.enqueue, Thread.goto]
  last _ _ v hv := by
    simp only [Thread.enqueue, Thread.goto, List.getLast?_concat, Option.mem_some_iff] at hv
    subst hv
    exact hw

/-- A thread whose list and `process_todo` stay, and that does not come out of a transaction. -/
theorem Awake.goto (h : Awake T) {p : Phase}
    (hp : p ≠ .transaction → p ≠ .failing → T.phase ≠ .transaction ∧ T.phase ≠ .failing) :
    Awake (T.goto p) where
  awake := h.awake
  work h₁ h₂ := h.work (hp h₁ h₂).1 (hp h₁ h₂).2
  last h₁ h₂ := h.last (hp h₁ h₂).1 (hp h₁ h₂).2

theorem Awake.dequeueNode (h : Awake T) : Awake (T.dequeue (.node n)) where
  awake v hv := h.awake v (List.mem_of_mem_filter hv)
  work h₁ h₂ hpt := by
    have hne := h.work h₁ h₂ hpt
    obtain ⟨v, hv⟩ := Option.ne_none_iff_exists'.mp (mt List.getLast?_eq_none_iff.mp hne)
    have hl := dequeue_last (n := n) hv (h.last h₁ h₂ v hv)
    intro hnil
    rw [hnil] at hl
    cases hl
  last h₁ h₂ v hv := by
    cases hn : T.todo.getLast? with
    | none =>
      rw [List.getLast?_eq_none_iff] at hn
      simp [Thread.dequeue, hn] at hv
    | some u =>
      have hu := h.last h₁ h₂ u hn
      have hl := dequeue_last (n := n) hn hu
      rw [Option.mem_unique hv hl]
      exact hu

theorem inTransaction_ne {p : Phase} (h : p.inTransaction = false) :
    p ≠ .transaction ∧ p ≠ .failing := by
  constructor <;> (rintro rfl; cases h)

theorem Awake.step (h : Awake T) (hs : Thread.Step fault T T') : Awake T' := by
  cases hs with
  | goto h₁ => exact h.goto fun _ _ => inTransaction_ne h₁
  | transaction => exact h.goto fun h₁ => absurd rfl h₁
  | @incNode n hph =>
    refine ⟨fun v hv hd => ?_, fun h₁ => absurd hph h₁, fun h₁ => absurd hph h₁⟩
    simp only [Thread.enqueueDeferred, Thread.dequeue, List.mem_append, List.mem_singleton] at hv
    rcases hv with hv | rfl
    · exact h.awake v (List.mem_of_mem_filter hv) hd
    · cases hd
  | dequeueNode => exact h.dequeueNode
  | complete hph hw =>
    subst hw
    refine ⟨fun v hv hd => ?_, fun _ _ _ => by simp [Thread.enqueueDeferred, Thread.goto],
      fun _ _ v hv => ?_⟩
    · simp only [Thread.enqueueDeferred, Thread.goto, List.mem_append, List.mem_singleton] at hv
      rcases hv with hv | rfl
      · exact h.awake v hv hd
      · cases hd
    · simp only [Thread.enqueueDeferred, Thread.goto, List.getLast?_concat, Option.mem_some_iff] at hv
      subst hv
      rfl
  | completeNow _ hw =>
    subst hw
    exact awake_enqueue rfl _
  | finish hph => exact h.goto fun _ _ => by simp [hph]
  | targetDead =>
    exact ⟨fun v hv => h.awake v (List.mem_of_mem_filter hv), fun _ h₂ => absurd rfl h₂,
      fun _ h₂ => absurd rfl h₂⟩
  | fail => exact awake_enqueue rfl .user
  | error => exact awake_enqueue rfl T.phase
  | enqueue hw =>
    refine awake_enqueue ?_ T.phase
    rcases hw with rfl | rfl <;> rfl
  | @take procWork w ws p hph htodo =>
    have hne : T.phase ≠ .transaction ∧ T.phase ≠ .failing := by simp [hph]
    refine ⟨fun v hv hd => ?_, fun _ _ hpt => ?_, fun _ _ v hv => ?_⟩
    · have := h.awake v (by rw [htodo]; exact List.mem_cons_of_mem _ hv) hd
      simp [this, List.ne_nil_of_mem hv]
    · simp only [Bool.and_eq_true, Bool.not_eq_true', List.isEmpty_eq_false_iff] at hpt
      exact hpt.2
    · refine h.last hne.1 hne.2 v ?_
      rw [htodo, List.getLast?_cons]
      cases hl : ws.getLast? with
      | none => rw [hl] at hv; cases hv
      | some u => rw [hl] at hv; exact hv
  | takeProc _ htodo =>
    refine ⟨fun v hv => ?_, fun _ _ => ?_, fun _ _ v hv => ?_⟩
    · exact (List.not_mem_nil (htodo ▸ hv)).elim
    · rintro ⟨⟩
    · rw [show T.todo.getLast? = none by rw [htodo]; rfl] at hv
      cases hv
  | report hph =>
    have hne : T.phase ≠ .transaction ∧ T.phase ≠ .failing := by simp [hph]
    exact ⟨h.awake, fun _ _ => h.work hne.1 hne.2, fun _ _ => h.last hne.1 hne.2⟩
  | fault _ hph => exact h.goto fun _ _ => by simp [hph]

/-- The invariant rule for the threads. -/
theorem thread_of_reachIf {C : TodoState → TodoOp → Prop} {I : Thread → Prop} (h₀ : I .new)
    (hstep : ∀ s op T T', C s op → I T → Thread.Step (!noFault s op) T T' → I T')
    (h : (todoSys L).ReachIf C s) (hT : s.thread x = some T) : I T := by
  suffices hi : NoProcError s ∧ ∀ x T, s.thread x = some T → I T from hi.2 x T hT
  refine h.inv (I := fun s => NoProcError s ∧ ∀ x T, s.thread x = some T → I T) ?_ ?_
  · rintro s rfl
    exact ⟨fun p e he => (List.not_mem_nil he).elim, fun x T hT => (Option.some_ne_none T hT.symm).elim⟩
  · rintro s op s' ⟨hp, hi⟩ hc he
    obtain ⟨hp', hthread⟩ := exec_thread hp he
    refine ⟨hp', fun y U' hU' => ?_⟩
    rcases hthread y U' hU' with ⟨-, rfl⟩ | ⟨U, hU, rfl | hs⟩
    · exact h₀
    · exact hi y U' hU
    · exact hstep s op U U' hc (hi y U hU) hs

/-- **A thread never sleeps on work it has to deliver, and is never kept awake without any.** -/
theorem processTodo_sound (h : (todoSys L).Reach s) (hT : s.thread x = some T)
    (hp : T.phase.inTransaction = false) :
    (∀ w ∈ T.todo, w.deferred = false → T.processTodo = true) ∧
      (T.processTodo = true → T.todo ≠ []) := by
  have ha : Awake T := thread_of_reachIf .new (fun _ _ _ _ _ h hs => h.step hs) h hT
  exact ⟨ha.awake, ha.work (inTransaction_ne hp).1 (inTransaction_ne hp).2⟩

/-- Every thread is the only one of its process. -/
def oneThread : Layout := ⟨id⟩

/-- The thread 0 makes a transaction with an object of its own that fails. -/
def failedCall : List TodoOp := [.newThread 0, .transaction 0, .incNode 0 7, .fail 0 .failedReply]

/-- The state after these, and after another thread has taken the node work away. -/
def afterFail : TodoState :=
  (Sys.execIf (TodoState.exec oneThread) (fun s op => noFault s op = true) start
    (failedCall ++ [.dequeueNode 7])).get (by decide)

theorem afterFail_reach :
    (todoSys oneThread).ReachIf (fun s op => noFault s op = true) afterFail :=
  Sys.ReachIf.execIf (.init rfl) (Option.some_get _).symm

theorem processTodo_afterFail : (afterFail.thread 0).map Thread.processTodo = some true ∧
    ∀ T, afterFail.thread 0 = some T → T.todo ≠ [] := by
  refine ⟨rfl, fun T hT => ?_⟩
  have hp : T.phase.inTransaction = false := by
    cases hT
    rfl
  have hpt : T.processTodo = true := by
    cases hT
    rfl
  exact (processTodo_sound afterFail_reach.reach hT hp).2 hpt

/-! ## The error slots -/

/-- 1 if the slot is set. -/
def Cmd.pending : Cmd → Nat
  | .ok => 0
  | _ => 1

theorem Cmd.pending_of_ne {c : Cmd} (h : c ≠ .ok) : c.pending = 1 := by
  cases c <;> first | rfl | exact absurd rfl h

/-- The work of a slot is once on the list or on its way to user space if the slot is set, and not
at all if it is free. -/
def Reported (T : Thread) : Prop := ∀ e,
  T.todo.count (.error e) + (T.phase.delivers e).toNat = (T.cmd e).pending

theorem Reported.new : Reported .new := fun _ => rfl

/-- The list has the same errors as before, and the thread delivers the same. -/
theorem Reported.same (h : Reported T) (hcount : ∀ e, T'.todo.count (.error e) = T.todo.count (.error e))
    (hphase : ∀ e, T'.phase.delivers e = T.phase.delivers e) (hcmd : T'.cmd = T.cmd) :
    Reported T' := fun e => by rw [hcount, hphase, hcmd]; exact h e

theorem count_dequeue (hw : w ≠ .error e) :
    (T.dequeue w).todo.count (.error e) = T.todo.count (.error e) := by
  simp only [Thread.dequeue]
  exact List.count_filter (by simpa using Ne.symm hw)

theorem count_append (hw : w ≠ .error e) (ws : List Work) :
    (ws ++ [w]).count (.error e) = ws.count (.error e) := by
  rw [List.count_append, List.count_singleton, if_neg (by simpa using hw), Nat.add_zero]

/-- A free slot is set. -/
theorem Reported.setError (h : Reported T) {c : Cmd} (hfree : T.cmd e = .ok) (hc : c ≠ .ok)
    {p : Phase} (hp : ∀ e, p.delivers e = T.phase.delivers e) :
    Reported ((T.setError e c).goto p) := by
  intro e'
  have hold := h e'
  simp only [Thread.setError, Thread.enqueue, Thread.goto, hp]
  by_cases he : e' = e
  · subst he
    rw [hfree] at hold
    simp only [Cmd.pending] at hold
    rw [Function.update_self, Cmd.pending_of_ne hc, List.count_append, List.count_singleton_self]
    omega
  · rw [Function.update_of_ne he, count_append (by simpa using Ne.symm he)]
    exact hold

theorem Reported.step (h : Reported T) (hs : Thread.Step false T T') : Reported T' := by
  cases hs with
  | goto _ _ hT hp => exact h.same (fun _ => rfl) (fun e => (hp e).trans (hT e).symm) rfl
  | transaction hph => exact h.same (fun _ => rfl) (fun e => by rw [hph]; rfl) rfl
  | @incNode n hph =>
    refine h.same (fun e => ?_) (fun _ => rfl) rfl
    exact (count_append (by simp) _).trans (count_dequeue (by simp))
  | dequeueNode => exact h.same (fun e => count_dequeue (by simp)) (fun _ => rfl) rfl
  | complete hph hw | completeNow hph hw =>
    subst hw
    exact h.same (fun e => count_append (by simp) _) (fun e => by rw [hph]; rfl) rfl
  | finish hph => exact h.same (fun _ => rfl) (fun e => by rw [hph]; rfl) rfl
  | targetDead hph =>
    exact h.same (fun e => count_dequeue (by simp)) (fun e => by rw [hph]; rfl) rfl
  | fail hph hc hfree =>
    refine h.setError hfree hc fun e => ?_
    rcases hph with hph | hph <;> rw [hph] <;> rfl
  | error hc hfree => exact h.setError hfree hc fun _ => rfl
  | enqueue hw =>
    refine h.same (fun e => count_append ?_ _) (fun _ => rfl) rfl
    rcases hw with rfl | rfl <;> simp
  | @take procWork w ws p hph htodo _ hp =>
    intro e
    have hold := h e
    rw [htodo, hph] at hold
    show ws.count (.error e) + (p.delivers e).toNat = (T.cmd e).pending
    by_cases hw : w = .error e
    · rw [(hp e).mpr hw]
      rw [hw, List.count_cons_self] at hold
      exact hold
    · rw [Bool.eq_false_iff.mpr (mt (hp e).mp hw)]
      rw [List.count_cons_of_ne hw] at hold
      exact hold
  | takeProc hph _ _ hp =>
    exact h.same (fun _ => rfl) (fun e => by rw [hph]; exact hp e) rfl
  | @report e procWork p hph _ hp =>
    intro e'
    have hold := h e'
    rw [hph] at hold
    show T.todo.count (.error e') + (p.delivers e').toNat = _
    rw [hp e']
    by_cases he : e' = e
    · subst he
      have hle : (T.cmd e').pending ≤ 1 := by cases T.cmd e' <;> simp [Cmd.pending]
      simp only [Phase.delivers, beq_self_eq_true, Bool.toNat_true] at hold
      simp only [Function.update_self, Cmd.pending, Bool.toNat_false]
      omega
    · simp only [Function.update_of_ne he]
      have hne : (e == e') = false := beq_eq_false_iff_ne.mpr (Ne.symm he)
      simpa only [Phase.delivers, hne] using hold
  | fault hf => cases hf

/-- **An error slot is set exactly while its work is on the list**, in every run in which `put_user`
of an error does not fail. -/
theorem errorSlots_free (h : (todoSys L).ReachIf (fun s op => noFault s op = true) s)
    (hT : s.thread x = some T) (e : Slot) (hp : T.phase.delivers e = false) :
    T.cmd e ≠ .ok ↔ .error e ∈ T.todo := by
  have hr : Reported T := by
    refine thread_of_reachIf .new (fun s op T T' hc hi hs => ?_) h hT
    rw [hc] at hs
    exact hi.step hs
  have he := hr e
  rw [hp] at he
  rw [← List.one_le_count_iff]
  simp only [Bool.toNat_false, Nat.add_zero] at he
  rw [he]
  constructor
  · intro hne
    exact Nat.le_of_eq (Cmd.pending_of_ne hne).symm
  · intro hle hok
    rw [hok] at hle
    exact absurd hle (by decide)

theorem errorSlots_afterFail : ∃ T, afterFail.thread 0 = some T ∧
    T.cmd .returnError = .failedReply ∧ .error .returnError ∈ T.todo := by
  obtain ⟨T, hT⟩ : ∃ T, afterFail.thread 0 = some T := ⟨_, rfl⟩
  have hp : T.phase.delivers .returnError = false := by
    cases hT
    rfl
  have hc : T.cmd .returnError = .failedReply := by
    cases hT
    rfl
  refine ⟨T, hT, hc, (errorSlots_free afterFail_reach hT .returnError hp).mp ?_⟩
  rw [hc]
  decide

/-- The thread reads its error, and `put_user` fails. -/
def faultyRead : List TodoOp :=
  [.read 0, .available 0 true, .wait 0 false false, .readWork 0 true true, .readWork 0 true true,
    .putUser 0 false true]

/-- The state after these. -/
def afterFault : TodoState :=
  (Sys.execIf (TodoState.exec oneThread) (fun _ _ => True) start (failedCall ++ faultyRead)).get
    (by decide)

/-- The slot is set and its work is nowhere; `binder_thread_write` takes no command any more. -/
theorem returnError_stuck : (todoSys oneThread).Reach afterFault ∧
    (afterFault.thread 0).map Thread.phase = some .user ∧
    (afterFault.thread 0).map Thread.todo = some [] ∧
    (afterFault.thread 0).map (·.cmd .returnError) = some .failedReply ∧
    afterFault.exec oneThread (.transaction 0) = none :=
  ⟨Sys.ReachIf.execIf (.init rfl) (Option.some_get _).symm, rfl, rfl, rfl, rfl⟩

end Redroid.Binder.Todo
