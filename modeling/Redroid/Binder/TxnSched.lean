import Redroid.Binder.TxnCases

/-!
# Tasks, waiting threads and dead owners in every run

* `Sched`: a thread that waits for work sleeps in `binder_thread_read`; a dead thread has no ioctl;
  a work list is released only when its owner is dead; after `binder_thread_read` has taken a
  transaction, nothing else is left to do for the task but to read on.
* `Inv.exec`, `Sched.exec`: every step keeps the two invariants. `inv_of_reach`: they hold in every
  run.
-/

namespace Redroid.Binder.Txn

/-- What a task does with a transaction or a buffer. -/
inductive Token where
  | sending (t : TxnId)
  | reading (t : TxnId)
  | freeing (b : BufId)
  | released (b : BufId)
  deriving DecidableEq, Repr

/-- A task in `binder_transaction` sends its transaction, one in `binder_thread_read` reads it. In
`binder_free_buf` the buffer is being freed until the next transaction of its node goes on. -/
def Act.token : Act → Option Token
  | .build _ t _ _ | .procTransaction _ t _ | .unwind t _ => some (.sending t)
  | .deliver _ t | .copy _ t => some (.reading t)
  | .freeBuf b | .freeBufAsync b => some (.freeing b)
  | .freeBufRelease b => some (.released b)
  | _ => none

/-- In `binder_thread_read`. -/
def Act.reads : Act → Bool
  | .readRetry _ | .wait .. | .sleep .. | .read .. | .deliver .. | .copy .. | .delivered .. => true
  | _ => false

/-- The owner of a work list is dead. -/
def OwnerDead (L : Layout) (s : TxnState) : WorkList → Prop
  | .proc p => s.isDead p = true
  | .thread x => (s.thread x).isDead = true
  | .node n => s.isDead (L.ownerOf n) = true

structure Sched (L : Layout) (s : TxnState) : Prop where
  waiting : ∀ {p y}, y ∈ s.waitingThreads p →
    L.procOf y = p ∧ ∃ rest, s.frames (.thread y) = .sleep y true :: rest
  nodup : ∀ p, (s.waitingThreads p).Nodup
  dead : ∀ {x act}, (s.thread x).isDead = true → act ∈ s.frames (.thread x) → act.self = none
  release : ∀ {a l}, .releaseWork l ∈ s.frames a → OwnerDead L s l
  asyncTodo : ∀ {n w}, w ∈ s.todo (.node n) → ∃ t, w = .transaction t
  tail : ∀ a, (s.frames a).Pairwise fun act act' => act.reads = true → act'.token = none

variable {L : Layout} {s s' : TxnState} {t u : TxnId} {b : BufId} {x y : ThreadId}
  {T : Transaction} {B : Buffer} {a : Actor} {act : Act} {rest g : List Act} {env : Env}
  {l : WorkList} {ws : List Work} {op : TxnOp}

/-- `g` may come in the place of `act`: it is for the same thread, releases no other list, and is
in `binder_thread_read` only if `act` is. -/
structure Follows (act : Act) (g : List Act) : Prop where
  self : ∀ act' ∈ g, ∀ x, act'.self = some x → act.self = some x
  release : ∀ l, .releaseWork l ∈ g → act = .releaseWork l
  reads : ∀ act' ∈ g, act'.reads = true → act.reads = true
  tail : g.Pairwise fun act act' => act.reads = true → act'.token = none

theorem Follows.nil : Follows act [] := ⟨by simp, by simp, by simp, .nil⟩

/-- A step of a task that kills nobody. -/
theorem Sched.step {z : List Act} (h : Sched L s) (hfr : s.frames a = act :: rest)
    (hfr' : s'.frames = Function.update s.frames a (g ++ z)) (hrest : z.Sublist rest)
    (hf : Follows act g) (hdead : s'.isDead = s.isDead)
    (hthr : ∀ x, (s'.thread x).isDead = (s.thread x).isDead)
    (hwait : ∀ p y, y ∈ s'.waitingThreads p → (y ∈ s.waitingThreads p ∧ act ≠ .sleep y true) ∨
      (L.procOf y = p ∧ a = .thread y ∧ g = [.sleep y true]))
    (hnodup : ∀ p, (s'.waitingThreads p).Nodup)
    (hnode : ∀ n w, w ∈ s'.todo (.node n) → w ∈ s.todo (.node n) ∨ ∃ t, w = .transaction t) :
    Sched L s' := by
  have hmem : ∀ act' ∈ s'.frames a, act' ∈ g ∨ act' ∈ rest := by
    intro act' hact'
    rw [hfr', Function.update_self] at hact'
    exact (List.mem_append.mp hact').imp_right fun h => hrest.subset h
  have hact : act ∈ s.frames a := hfr ▸ List.mem_cons_self
  have hin : ∀ act' ∈ rest, act' ∈ s.frames a := fun act' h' => hfr ▸ List.mem_cons_of_mem act h'
  refine ⟨?_, hnodup, ?_, ?_, ?_, ?_⟩
  · intro p y hy
    rcases hwait p y hy with ⟨hy, hne⟩ | ⟨hp, rfl, rfl⟩
    · obtain ⟨hp, r, hr⟩ := h.waiting hy
      refine ⟨hp, r, ?_⟩
      rw [hfr', Function.update_of_ne ?_, hr]
      rintro rfl
      rw [hfr] at hr
      cases hr
      exact hne rfl
    · exact ⟨hp, z, by rw [hfr', Function.update_self]; rfl⟩
  · intro x act' hd hact'
    rw [hthr] at hd
    rcases eq_or_ne a (.thread x) with rfl | hne
    · rcases hmem act' hact' with hnew | hold
      · have hnone := h.dead hd hact
        cases hs : act'.self with
        | none => rfl
        | some z => rw [hf.self act' hnew z hs] at hnone; cases hnone
      · exact h.dead hd (hin act' hold)
    · rw [hfr', Function.update_of_ne hne.symm] at hact'
      exact h.dead hd hact'
  · have hown : ∀ l, OwnerDead L s l → OwnerDead L s' l := by
      intro l hl
      cases l with
      | proc p => exact (congrFun hdead p).trans hl
      | thread x => exact (hthr x).trans hl
      | node n => exact (congrFun hdead _).trans hl
    intro a' l hl
    refine hown l ?_
    rcases eq_or_ne a' a with rfl | hne
    · rcases hmem _ hl with hnew | hold
      · exact h.release (hf.release l hnew ▸ hact)
      · exact h.release (hin _ hold)
    · rw [hfr', Function.update_of_ne hne] at hl
      exact h.release hl
  · intro n w hw
    rcases hnode n w hw with hw | hw
    · exact h.asyncTodo hw
    · exact hw
  · intro a'
    rcases eq_or_ne a' a with rfl | hne
    · have htail := h.tail a'
      rw [hfr, List.pairwise_cons] at htail
      rw [hfr', Function.update_self, List.pairwise_append]
      exact ⟨hf.tail, htail.2.sublist hrest, fun act' h' act'' h'' hr =>
        htail.1 act'' (hrest.subset h'') (hf.reads act' h' hr)⟩
    · rw [hfr', Function.update_of_ne hne]
      exact h.tail a'

/-- A step of a task that changes no list of waiting threads and kills nobody. -/
theorem Sched.next (h : Sched L s) (hfr : s.frames a = act :: rest)
    (hfr' : s'.frames = Function.update s.frames a (g ++ rest)) (hf : Follows act g)
    (hdead : s'.isDead = s.isDead) (hthr : ∀ x, (s'.thread x).isDead = (s.thread x).isDead)
    (hact : ∀ x, act ≠ .sleep x true) (hwait : s'.waitingThreads = s.waitingThreads)
    (hnode : ∀ n w, w ∈ s'.todo (.node n) → w ∈ s.todo (.node n) ∨ ∃ t, w = .transaction t) :
    Sched L s' :=
  h.step hfr hfr' (.refl _) hf hdead hthr
    (fun p y hy => .inl ⟨by rwa [hwait] at hy, hact y⟩) (by rw [hwait]; exact h.nodup) hnode

theorem isDead_setThread {th : Thread} (hd : th.isDead = (s.thread x).isDead) (z : ThreadId) :
    ((s.setThread x th).thread z).isDead = (s.thread z).isDead := by
  rcases eq_or_ne z x with rfl | hne
  · simpa using hd
  · simp [hne]

theorem isDead_setStack {v : Option TxnId} (z : ThreadId) :
    ((s.setStack x v).thread z).isDead = (s.thread z).isDead := by
  rcases eq_or_ne z x with rfl | hne
  · simp
  · simp [hne]

theorem pop_same (hp : s.pop y t = some s') : s'.frames = s.frames ∧ s'.isDead = s.isDead ∧
    s'.waitingThreads = s.waitingThreads ∧ s'.todo = s.todo ∧ s'.node = s.node ∧ s'.buf = s.buf ∧
    ∀ z, (s'.thread z).isDead = (s.thread z).isDead := by
  obtain ⟨T, -, -, -, rfl⟩ := pop_eq hp
  exact ⟨rfl, rfl, rfl, rfl, rfl, rfl, isDead_setStack (s := s.setTxn t _)⟩

theorem Follows.onError {irt : Option TxnId} : Follows act (TxnState.onError irt) := by
  cases irt <;> constructor <;> simp [TxnState.onError, Act.self, Act.reads]

theorem mem_setTodo_node {n : NodeId} {w : Work} (hl : (s.todo l) = w :: ws) {w' : Work}
    (hw : w' ∈ (s.setTodo l ws).todo (.node n)) : w' ∈ s.todo (.node n) := by
  rcases eq_or_ne l (.node n) with rfl | hne
  · rw [hl]; exact List.mem_cons_of_mem _ (by simpa using hw)
  · simpa [hne.symm] using hw

theorem mem_enqueue_node {n : NodeId} {w w' : Work} (hw : w' ∈ (s.enqueue l w).todo (.node n)) :
    w' ∈ s.todo (.node n) ∨ l = .node n ∧ w' = w := by
  rcases eq_or_ne l (.node n) with rfl | hne
  · simp only [TxnState.enqueue_todo, Function.update_self, List.mem_append,
      List.mem_singleton] at hw
    exact hw.imp_right fun h => ⟨rfl, h⟩
  · exact .inl (by simpa [hne.symm] using hw)

theorem mem_enqueueThread_node {n : NodeId} {w w' : Work}
    (hw : w' ∈ (s.enqueueThread y w).todo (.node n)) : w' ∈ s.todo (.node n) := by
  simpa using hw

theorem selectThread_waiting (q p : ProcId) :
    ((s.selectThread q).2.waitingThreads p).Sublist (s.waitingThreads p) := by
  unfold TxnState.selectThread
  split
  · exact .refl _
  · rename_i y ys hw
    rcases eq_or_ne p q with rfl | hne
    · simp [hw]
    · simp [hne]

/-- `binder_proc_transaction` takes at most one thread off a list of waiting threads. -/
theorem procTransaction_waiting {oneWay ok : Bool} {n : NodeId} {q : ProcId} {th : Option ThreadId}
    (he : s.binderProcTransaction t oneWay n q th = some (ok, s')) (p : ProcId) :
    (s'.waitingThreads p).Sublist (s.waitingThreads p) := by
  cases ok with
  | false =>
    obtain ⟨rfl, -⟩ := procTransaction_fails he
    rw [setAsync_waiting]
  | true =>
    obtain ⟨-, ⟨-, -, -, rfl⟩ | ⟨-, ⟨y, -, -, -, rfl⟩ | ⟨-, y, ys, hw, rfl⟩ | ⟨-, -, rfl⟩⟩⟩ :=
      procTransaction_cases he
    · simp
    · exact .refl _
    · simp only [TxnState.enqueueThread_waitingThreads, TxnState.setWaiting_waitingThreads,
        setAsync_waiting]
      rcases eq_or_ne p q with rfl | hne
      · rw [Function.update_self, hw]; exact List.sublist_cons_self _ _
      · rw [Function.update_of_ne hne]
    · simp

theorem Sched.execAct (h : Sched L s) (hself : ∀ x, act.self = some x → a = .thread x)
    (hfr : s.frames a = act :: rest) (hst : ActStep L s a rest env act s') : Sched L s' := by
  have hset (g : List Act) (hf : Follows act g) (hact : ∀ x, act ≠ .sleep x true) :
      Sched L (s.setFrames a (g ++ rest)) :=
    h.next hfr rfl hf rfl (fun _ => rfl) hact rfl fun _ _ => .inl
  cases hst with
  | checkFail | replyBad | noWait | releaseDone => exact hset [] .nil (by simp)
  | checkOneWay | checkFirst | checkNested | replyDead | replyTo | buildFail | buildOneWay
  | cleanupCall | cleanupOther | freeBuf | asyncNot | readRetry | woken | waitThread | copyFail
  | deliveredOther => exact hset [_] (by constructor <;> simp [Act.self, Act.reads]) (by simp)
  | sendFail => exact hset _ .onError (by simp)
  | @failedParent t T =>
    refine hset (_ :: TxnState.onError _) ?_ (by simp)
    cases T.fromParent <;> constructor <;> simp [TxnState.onError, Act.self, Act.reads]
  | readNothing hnew =>
    refine hset _ ?_ (by simp)
    rcases hnew with rfl | rfl <;> constructor <;> simp [Act.self, Act.reads]
  | sendAlloc =>
    exact h.next hfr (g := [_]) rfl (by constructor <;> simp [Act.self, Act.reads]) rfl
      (fun _ => rfl) (by simp) rfl fun _ _ => .inl
  | @buildReply x t r y s₁ hd hpop =>
    obtain ⟨e₁, e₂, e₃, e₄, -, -, e₇⟩ := pop_same hpop
    refine h.next hfr (g := [.freeTransaction r]) ?_ (by
      constructor <;> simp [Act.self, Act.reads]) e₂ ?_ (by simp)
      e₃ ?_
    · rw [← e₁]; rfl
    · exact fun z => ((SameTasks.enqueueThread y _).threadDead z).trans (e₇ z)
    · exact fun n w hw => .inl (e₄ ▸ mem_enqueueThread_node (s := s₁) (y := y) (w := .transaction t) hw)
  | buildCall =>
    exact h.next hfr (g := [_]) rfl (by constructor <;> simp [Act.self, Act.reads]) rfl
      (isDead_setStack (s := s.setTxn _ _)) (by simp) rfl fun _ _ => .inl
  | @accepted x t th T b B n s₁ hT hb hB hn hpt =>
    obtain ⟨hst, -, -, l, htodo, -⟩ := binderProcTransaction_spec hpt
    refine h.step hfr (g := []) (by rw [← hst.frames]; rfl) (.refl _) .nil hst.isDead
      hst.threadDead (fun p y hy => .inl ⟨hst.waiting p y hy, by simp⟩) ?_ ?_
    · exact fun p => (h.nodup p).sublist (procTransaction_waiting hpt p)
    · intro m w hw
      have hw : w ∈ s₁.todo (.node m) := hw
      rw [htodo] at hw
      rcases (mem_enqueue_node (s := s) hw) with hw | ⟨-, rfl⟩
      · exact .inl hw
      · exact .inr ⟨t, rfl⟩
  | @rejected x t th T b B n s₁ hT hb hB hn hpt =>
    obtain ⟨rfl, -⟩ := procTransaction_fails hpt
    refine h.next hfr (g := (if T.oneWay then [] else [.popTransaction x t]) ++ [.unwind t none])
      (by simp) ?_ (by simp) (by simp) (by simp) (by simp) fun _ _ hw => .inl (by simpa using hw)
    split <;> constructor <;> simp [Act.self, Act.reads]
  | @pop x t s₁ hpop =>
    obtain ⟨e₁, e₂, e₃, e₄, -, -, e₇⟩ := pop_same hpop
    exact h.next hfr (g := []) (by rw [← e₁]; rfl) .nil e₂ e₇ (by simp) e₃
      fun _ _ hw => .inl (e₄ ▸ hw)
  | unwind =>
    exact h.next hfr rfl .onError rfl (fun _ => rfl) (by simp) rfl fun _ _ => .inl
  | @failedReply t T y s₁ hT hy hpop =>
    obtain ⟨e₁, e₂, e₃, e₄, -, -, e₇⟩ := pop_same hpop
    obtain ⟨s₂, hs₂⟩ : ∃ s₂, s₂ =
      if env.ok then s₁.enqueueThread y (.other .returnError) else s₁ := ⟨_, rfl⟩
    have hst : SameTasks s₁ s₂ ∧ s₂.waitingThreads = s₁.waitingThreads ∧
        ∀ n w, w ∈ s₂.todo (.node n) → w ∈ s₁.todo (.node n) := by
      rw [hs₂]
      split
      · exact ⟨.enqueueThread y _, rfl, fun _ _ => mem_enqueueThread_node⟩
      · exact ⟨.refl _, rfl, fun _ _ => id⟩
    rw [← hs₂]
    refine h.next hfr (g := [.freeTransaction t]) ?_
      (by constructor <;> simp [Act.self, Act.reads]) (hst.1.isDead.trans e₂) (fun z =>
        (hst.1.threadDead z).trans (e₇ z)) (by simp) (hst.2.1.trans e₃) fun n w hw =>
          .inl (e₄ ▸ hst.2.2 n w hw)
    rw [← e₁, ← hst.1.frames]
    rfl
  | @freeLinked t T p b s₁ hT hp hb hs₁ =>
    obtain ⟨B, hB, hs₁⟩ := Option.bind_eq_some_iff.mp hs₁
    cases hs₁
    exact h.next hfr (g := []) rfl .nil rfl (fun _ => rfl) (by simp) rfl fun _ _ => .inl
  | freeUnlinked | freeBufRelease | nodeRelease =>
    exact h.next hfr (g := []) rfl .nil rfl (fun _ => rfl) (by simp) rfl fun _ _ => .inl
  | freeBufLinked | asyncLast | copy =>
    exact h.next hfr (g := [_]) rfl (by constructor <;> simp [Act.self, Act.reads]) rfl
      (fun _ => rfl) (by simp) rfl fun _ _ => .inl
  | @asyncNext b B n w ws hB ha hn hf htodo =>
    obtain ⟨hst, htodo', -⟩ := selectThread_spec (s := (s.setTodo (.node n) ws).enqueue (.proc B.proc) w)
      B.proc
    refine h.step hfr (g := [.freeBufRelease b]) (by rw [TxnState.setFrames_frames, hst.frames]; rfl)
      (.refl _) (by constructor <;> simp [Act.self, Act.reads]) hst.isDead hst.threadDead
      (fun p y hy => .inl ⟨hst.waiting p y hy, by simp⟩) ?_ fun m w' hw => .inl ?_
    · intro p
      simp only [TxnState.setFrames_waitingThreads]
      exact (h.nodup p).sublist (selectThread_waiting _ p)
    · rw [TxnState.setFrames_todo, htodo'] at hw
      exact mem_setTodo_node htodo ((mem_enqueue_node hw).resolve_right (by simp))
  | @waitProc x hno =>
    have hx : ∀ p, x ∉ s.waitingThreads p := by
      intro p hx
      obtain ⟨-, r, hr⟩ := h.waiting hx
      rw [hself x rfl, hr] at hfr
      cases hfr
    refine h.step hfr (g := [.sleep x true]) rfl (.refl _)
      (by constructor <;> simp [Act.self, Act.reads]) rfl (fun _ => rfl) ?_ ?_ fun _ _ => .inl
    · intro p y hy
      rcases eq_or_ne p (L.procOf x) with rfl | hne
      · simp only [TxnState.setFrames_waitingThreads, TxnState.setWaiting_waitingThreads,
          Function.update_self, List.mem_cons] at hy
        rcases hy with rfl | hy
        · exact .inr ⟨rfl, hself y rfl, rfl⟩
        · exact .inl ⟨hy, by simp⟩
      · exact .inl ⟨by simpa [hne] using hy, by simp⟩
    · intro p
      rcases eq_or_ne p (L.procOf x) with rfl | hne
      · simpa using ⟨hx _, h.nodup _⟩
      · simpa [hne] using h.nodup p
  | @wake x procWork g hnew =>
    have hsub : ∀ p, ((s.setWaiting (L.procOf x) ((s.waitingThreads (L.procOf x)).filter (· ≠ x))
        ).waitingThreads p).Sublist (s.waitingThreads p) := by
      intro p
      rcases eq_or_ne p (L.procOf x) with rfl | hne
      · simp
      · simp [hne]
    refine h.step hfr rfl (.refl _) ?_ rfl (fun _ => rfl) ?_ (fun p => (h.nodup p).sublist (hsub p))
      fun _ _ => .inl
    · rcases hnew with rfl | rfl <;> constructor <;> simp [Act.self, Act.reads]
    · intro p y hy
      refine .inl ⟨(hsub p).subset hy, ?_⟩
      rintro ⟨⟩
      have hp := (h.waiting ((hsub p).subset hy)).1
      subst hp
      simp at hy
  | @readOther x procWork l type ws g hl htodo hnew =>
    refine h.next hfr rfl ?_ rfl (isDead_setThread (s := s.setTodo l ws) rfl) (by simp) rfl
      fun n w hw => .inl (mem_setTodo_node htodo hw)
    rcases hnew with rfl | rfl <;> constructor <;> simp [Act.self, Act.reads]
  | @readTransaction x procWork l t ws hl htodo =>
    exact h.next hfr (g := [_, _]) rfl
      (by constructor <;> simp [Act.self, Act.reads, Act.token]) rfl
      (isDead_setThread (s := s.setTodo l ws) rfl) (by simp) rfl
      fun n w hw => .inl (mem_setTodo_node htodo hw)
  | @deliver x t =>
    exact h.step hfr (g := [.copy x t]) (z := []) rfl (List.nil_sublist _)
      (by constructor <;> simp [Act.self, Act.reads]) rfl (fun _ => rfl)
      (fun p y hy => .inl ⟨hy, by simp⟩) h.nodup fun _ _ => .inl
  | @deliverFail x t T b B =>
    refine h.step hfr (g := [.cleanupTransaction t, .freeBuf b])
      (z := if B.targetNode.isNone then [] else rest) rfl ?_
      (by constructor <;> simp [Act.self, Act.reads]) rfl (fun _ => rfl)
      (fun p y hy => .inl ⟨hy, by simp⟩) h.nodup fun _ _ => .inl
    split <;> simp
  | deliveredCall =>
    exact h.next hfr (g := []) rfl .nil rfl (isDead_setStack (s := s.setTxn _ _)) (by simp) rfl
      fun _ _ => .inl
  | @releaseTransaction l t ws htodo =>
    exact h.next hfr (g := [_, _]) rfl (by constructor <;> simp [Act.self, Act.reads]) rfl
      (fun _ => rfl) (by simp) rfl fun n w hw => .inl (mem_setTodo_node htodo hw)
  | @releaseOther l type ws htodo =>
    exact h.next hfr (g := [_]) rfl (by constructor <;> simp [Act.self, Act.reads]) rfl
      (fun _ => rfl) (by simp) rfl fun n w hw => .inl (mem_setTodo_node htodo hw)

/-! ## The ioctl commands and the worker -/

theorem filterMap_erase_other {k : WorkType} (ws : List Work) :
    (ws.erase (.other k)).filterMap Work.txn? = ws.filterMap Work.txn? := by
  induction ws with
  | nil => rfl
  | cons w ws ih =>
    rcases eq_or_ne w (.other k) with rfl | hne
    · rw [List.erase_cons_head]; rfl
    · rw [List.erase_cons_tail (by simpa using hne), List.filterMap_cons, List.filterMap_cons, ih]

/-- What `binder_thread_release` leaves in its first part keeps the invariant. -/
theorem Inv.threadRelease {fuel : Nat} (h : Inv L s) (hfr : s.frames a = [])
    (he : s.threadRelease a x fuel = some s') : Inv L s' := by
  obtain ⟨-, s₁, hs₁, g, hnew, rfl⟩ := threadRelease_eq he
  have h₀ : Inv L (s.setThread x { s.thread x with isDead := true }) := by
    refine h.other ⟨rfl, rfl, fun z => ?_, rfl, rfl⟩ rfl (fun _ => rfl) rfl
    rcases eq_or_ne z x with rfl | hne
    · simp
    · simp [hne]
  obtain ⟨h₁, hfr₁, htodo₁, hnext₁, -⟩ := h₀.releaseStack (fun t ht => h.parents.stack ht) hs₁
  have hcont : s₁.contents = s.contents := by
    funext p
    cases p <;> simp only [TxnState.contents, htodo₁, hfr₁] <;> rfl
  refine h₁.start (by rw [hfr₁]; exact hfr) g ?_ ?_ fun act hact => ?_
  · rw [List.filterMap_eq_nil_iff]
    intro act hact
    rcases hnew act hact with rfl | ⟨t, T, rfl, -⟩ <;> rfl
  · rw [List.filterMap_eq_nil_iff]
    intro act hact
    rcases hnew act hact with rfl | ⟨t, T, rfl, -⟩ <;> rfl
  · rcases hnew act hact with rfl | ⟨t, T, rfl, hst, hT, hx⟩
    · exact ⟨by simp [Act.refs], trivial, by simp [Act.self], by simp [Act.calls]⟩
    · -- the top of the stack has reached user space
      have hset := h.parents.stack hst
      refine ⟨fun u hu => ?_, trivial, by simp [Act.self], by simp [Act.calls]⟩
      rw [List.mem_singleton.mp hu, hcont]
      exact ⟨hnext₁ ▸ hset.1, hset.2 T hT hx⟩

theorem frames_of_idle (h : s.idle L x = true) : s.frames (.thread x) = [] := by
  simp only [TxnState.idle, Bool.and_eq_true, List.isEmpty_iff] at h
  exact h.1.1

/-- Every step keeps the invariant. -/
theorem Inv.exec (h : Inv L s) (hs : Sched L s) (he : s.exec L op = some s') : Inv L s' := by
  cases op with
  | transaction x n oneWay =>
    simp only [TxnState.exec, bind, Option.bind_eq_some_iff, Option.guard_eq_some',
      exists_const] at he
    obtain ⟨hi, tp, htp, he⟩ := he
    cases he
    refine h.start (frames_of_idle hi) [.check x tp n oneWay] rfl rfl ?_
    simpa [Good, Act.refs, Act.self, Act.calls, ActOk] using h.owners htp
  | reply x oneWay =>
    simp only [TxnState.exec, bind, Option.bind_eq_some_iff, Option.guard_eq_some',
      exists_const] at he
    obtain ⟨hi, irt, hst, T, hT, hx, he⟩ := he
    cases he
    have hfr := frames_of_idle hi
    have hset := h.parents.stack hst
    have h₁ : Inv L (s.setStack x T.toParent) := by
      refine h.setStack (fun u hu => h.parents.toParent hT hx hu) fun a act hact _ hself => ?_
      rw [h.self hact hself, hfr] at hact
      cases hact
    refine h₁.start hfr [.replyTarget x irt oneWay] rfl rfl ?_
    have : Settled (s.setStack x T.toParent).contents (s.setStack x T.toParent) irt :=
      ⟨hset.1, hset.2 T hT hx⟩
    simpa [Good, Act.refs, Act.self, Act.calls, ActOk] using this
  | read x =>
    simp only [TxnState.exec, bind, Option.bind_eq_some_iff, Option.guard_eq_some',
      exists_const] at he
    obtain ⟨hi, he⟩ := he
    cases he
    exact h.start (frames_of_idle hi) [.readRetry x] rfl rfl
      (by simp [Good, Act.refs, Act.self, Act.calls, ActOk])
  | freeBuffer x b =>
    simp only [TxnState.exec, bind, Option.bind_eq_some_iff, Option.guard_eq_some',
      exists_const] at he
    obtain ⟨hi, B, hB, -, hu, he⟩ := he
    cases he
    have hnf : ¬ OnList s.freeing b := fun hf => by
      have := h.notUser hf hB
      rw [hu] at this
      cases this
    have hnl : ∀ u U B, OnList s.contents u → ¬ Live L s u U b B := fun u U B' _ hl => by
      have hB' := hl.buf
      rw [hB] at hB'
      cases hB'
      have := hl.allowUserFree
      rw [hu] at this
      cases this
    have h₁ : Inv L (s.setBuf b (some { B with allowUserFree := false })) :=
      h.setBuf hB (by rintro _ ⟨⟩; exact .inl rfl) hnl (by rintro - _ ⟨⟩; rfl)
    refine h₁.addFree [] [] (frames_of_idle hi) (by simp)
      (B := { B with allowUserFree := false }) (by simp) rfl hnf fun u U B' hon hl => ?_
    -- its transaction would be the one of `b` before
    obtain ⟨p, hp⟩ := hon
    obtain ⟨U₀, b₀, B₀, hl₀, -⟩ := h.live (show u ∈ s.contents p from hp)
    have hU : s.txn u = some U := hl.txn
    have h₂ := hl₀.txn
    rw [hU] at h₂
    cases h₂
    have h₃ := hl₀.buffer
    rw [hl.buffer] at h₃
    cases h₃
    exact hnl u U B₀ ⟨p, hp⟩ hl₀
  | threadExit x fuel =>
    simp only [TxnState.exec, bind, Option.bind_eq_some_iff, Option.guard_eq_some',
      exists_const] at he
    exact h.threadRelease (frames_of_idle he.1) he.2
  | procDeath p =>
    cases he
    exact h.other ⟨rfl, rfl, fun _ => rfl, rfl, rfl⟩ rfl (fun _ => rfl) rfl
  | releaseThread p x fuel =>
    simp only [TxnState.exec, bind, Option.bind_eq_some_iff, Option.guard_eq_some',
      exists_const, TxnState.workerIdle, Bool.and_eq_true, List.isEmpty_iff] at he
    exact h.threadRelease he.1.1 he.2.2.2
  | releaseNode p n =>
    simp only [TxnState.exec, bind, Option.bind_eq_some_iff, Option.guard_eq_some',
      exists_const, TxnState.workerIdle, Bool.and_eq_true, List.isEmpty_iff] at he
    obtain ⟨hi, -, he⟩ := he
    cases he
    exact h.start hi.1 [.releaseWork (.node n), .nodeRelease n] rfl rfl
      (by simp [Good, Act.refs, Act.self, Act.calls, ActOk])
  | releaseTodo p =>
    simp only [TxnState.exec, bind, Option.bind_eq_some_iff, Option.guard_eq_some',
      exists_const, TxnState.workerIdle, Bool.and_eq_true, List.isEmpty_iff] at he
    obtain ⟨hi, he⟩ := he
    cases he
    exact h.start hi.1 [.releaseWork (.proc p)] rfl rfl
      (by simp [Good, Act.refs, Act.self, Act.calls, ActOk])
  | addProcWork p type =>
    cases he
    exact h.other ⟨rfl, rfl, fun _ => rfl, rfl, rfl⟩ rfl filterMap_enqueue_other rfl
  | addThreadWork x type deferred =>
    simp only [TxnState.exec, bind, Option.bind_eq_some_iff, Option.guard_eq_some',
      exists_const] at he
    obtain ⟨-, he⟩ := he
    split at he <;> cases he
    · exact h.other ⟨rfl, rfl, fun _ => rfl, rfl, rfl⟩ rfl filterMap_enqueue_other rfl
    · exact h.other ⟨rfl, rfl, (SameTasks.enqueueThread x _).stack, rfl, rfl⟩ rfl
        filterMap_enqueue_other rfl
  | dropWork l type =>
    cases he
    refine h.other ⟨rfl, rfl, fun _ => rfl, rfl, rfl⟩ rfl (fun l' => ?_) rfl
    rcases eq_or_ne l' l with rfl | hne
    · rw [TxnState.setTodo_todo, Function.update_self, filterMap_erase_other]
    · rw [TxnState.setTodo_todo, Function.update_of_ne hne]
  | run a env =>
    simp only [TxnState.exec] at he
    split at he
    · cases he
    · exact h.execAct (fun p y hy => (hs.waiting hy).1) (fun n w hw => hs.asyncTodo hw) ‹_› he

/-- A step that changes no task, and kills threads without an ioctl only. -/
theorem Sched.other (h : Sched L s) (hfr : s'.frames = s.frames)
    (hwait : s'.waitingThreads = s.waitingThreads)
    (hdead : ∀ p, s.isDead p = true → s'.isDead p = true)
    (hthr : ∀ x, (s.thread x).isDead = true → (s'.thread x).isDead = true)
    (hkill : ∀ x, (s'.thread x).isDead = true → (s.thread x).isDead = true ∨
      s.frames (.thread x) = [])
    (hnode : ∀ n w, w ∈ s'.todo (.node n) → w ∈ s.todo (.node n)) : Sched L s' where
  waiting hy := by rw [hwait] at hy; rw [hfr]; exact h.waiting hy
  nodup p := by rw [hwait]; exact h.nodup p
  dead {x act} hd hact := by
    rw [hfr] at hact
    rcases hkill x hd with hd | hnil
    · exact h.dead hd hact
    · rw [hnil] at hact; cases hact
  release {a l} hl := by
    rw [hfr] at hl
    have hown := h.release hl
    cases l with
    | proc p => exact hdead p hown
    | thread x => exact hthr x hown
    | node n => exact hdead _ hown
  asyncTodo {n w} hw := h.asyncTodo (hnode n w hw)
  tail a := by rw [hfr]; exact h.tail a

/-- An idle task starts with `g`. -/
theorem Sched.start (h : Sched L s) (hfr : s.frames a = []) (g : List Act)
    (hd : ∀ x act, act ∈ g → act.self = some x → a = .thread x → (s.thread x).isDead = false)
    (hself : ∀ act ∈ g, ∀ x, act.self = some x → a = .thread x)
    (hrel : ∀ l, .releaseWork l ∈ g → OwnerDead L s l)
    (htail : g.Pairwise fun act act' => act.reads = true → act'.token = none) :
    Sched L (s.setFrames a g) := by
  have hne : ∀ {a' : Actor}, a' ≠ a → (s.setFrames a g).frames a' = s.frames a' := fun hne => by
    simp [hne]
  have heq : (s.setFrames a g).frames a = g := by simp
  refine ⟨fun {p y} hy => ?_, h.nodup, fun {x act} hdx hact => ?_, fun {a' l} hl => ?_, h.asyncTodo,
    fun a' => ?_⟩
  · obtain ⟨hp, r, hr⟩ := h.waiting hy
    refine ⟨hp, r, ?_⟩
    rw [hne, hr]
    rintro rfl
    rw [hfr] at hr
    cases hr
  · rcases eq_or_ne (.thread x) a with rfl | hx
    · rw [heq] at hact
      cases hs : act.self with
      | none => rfl
      | some z =>
        have hz := hself act hact z hs
        cases hz
        have := hd x act hact hs rfl
        rw [show (s.thread x).isDead = true from hdx] at this
        cases this
    · rw [hne hx] at hact
      exact h.dead hdx hact
  · rcases eq_or_ne a' a with rfl | hx
    · rw [heq] at hl; exact hrel l hl
    · rw [hne hx] at hl; exact h.release hl
  · rcases eq_or_ne a' a with rfl | hx
    · rw [heq]; exact htail
    · rw [hne hx]; exact h.tail a'

/-- `binder_thread_release` of a thread that is in no ioctl. -/
theorem Sched.threadRelease {fuel : Nat} (h : Sched L s) (hi : Inv L s) (hfr : s.frames a = [])
    (hx : s.frames (.thread x) = []) (he : s.threadRelease a x fuel = some s') : Sched L s' := by
  obtain ⟨-, s₁, hs₁, g, hnew, rfl⟩ := threadRelease_eq he
  have h₀ : Inv L (s.setThread x { s.thread x with isDead := true }) := by
    refine hi.other ⟨rfl, rfl, fun z => ?_, rfl, rfl⟩ rfl (fun _ => rfl) rfl
    rcases eq_or_ne z x with rfl | hne
    · simp
    · simp [hne]
  obtain ⟨-, hfr₁, htodo₁, -, -, hdead₁, hwait₁, hthr₁⟩ :=
    h₀.releaseStack (fun t ht => hi.parents.stack ht) hs₁
  have hkill : ∀ z, (s₁.thread z).isDead = if z = x then true else (s.thread z).isDead := by
    intro z
    rw [hthr₁]
    rcases eq_or_ne z x with rfl | hne
    · simp
    · simp [hne]
  have h₁ : Sched L s₁ := by
    refine h.other hfr₁ hwait₁ (fun p hp => by rw [hdead₁]; exact hp) ?_ ?_ ?_
    · intro z hz
      rw [hkill]; split <;> simp [hz]
    · intro z hz
      rw [hkill] at hz
      split at hz
      · rename_i he; exact .inr (he ▸ hx)
      · exact .inl hz
    · intro n w hw
      rw [htodo₁] at hw
      exact hw
  refine h₁.start (by rw [hfr₁]; exact hfr) g ?_ ?_ ?_ ?_
  · intro z act hact hs
    rcases hnew act hact with rfl | ⟨t, T, rfl, -⟩ <;> cases hs
  · intro act hact z hs
    rcases hnew act hact with rfl | ⟨t, T, rfl, -⟩ <;> cases hs
  · intro l hl
    rcases hnew _ hl with he | ⟨t, T, he, -⟩ <;> cases he
    simp [OwnerDead, hkill]
  · refine List.Pairwise.imp_of_mem (R := fun _ _ => True) ?_ (List.pairwise_of_forall fun _ _ => trivial)
    intro act act' hact _ _ hr
    rcases hnew act hact with rfl | ⟨t, T, rfl, -⟩ <;> cases hr

theorem live_of_idle (h : s.idle L x = true) :
    (s.thread x).isDead = false ∧ s.isDead (L.procOf x) = false := by
  simp only [TxnState.idle, Bool.and_eq_true, Bool.not_eq_true'] at h
  exact ⟨h.1.2, h.2⟩

theorem Sched.exec (h : Sched L s) (hi : Inv L s) (he : s.exec L op = some s') : Sched L s' := by
  -- an ioctl of the thread `x`
  have hioctl {s₁ : TxnState} {x : ThreadId} (h₁ : Sched L s₁) (hidle : s.idle L x = true)
      (hfr : s₁.frames = s.frames) (hthr : ∀ x, (s₁.thread x).isDead = (s.thread x).isDead)
      (act : Act) (hself : act.self = some x ∨ act.self = none) (hrel : ∀ l, act ≠ .releaseWork l) :
      Sched L (s₁.setFrames (.thread x) [act]) := by
    refine h₁.start (by rw [hfr]; exact frames_of_idle hidle) [act] ?_ ?_ ?_ (List.pairwise_singleton _ _)
    · rintro z act' hact' hs ⟨⟩
      rw [hthr]; exact (live_of_idle hidle).1
    · intro act' hact' z hs
      rw [List.mem_singleton.mp hact'] at hs
      rcases hself with h' | h' <;> rw [h'] at hs <;> cases hs
      rfl
    · intro l hl
      exact absurd (List.mem_singleton.mp hl).symm (hrel l)
  cases op with
  | transaction x n oneWay =>
    simp only [TxnState.exec, bind, Option.bind_eq_some_iff, Option.guard_eq_some',
      exists_const] at he
    obtain ⟨hidle, tp, -, he⟩ := he
    cases he
    exact hioctl h hidle rfl (fun _ => rfl) _ (.inl rfl) (by simp)
  | reply x oneWay =>
    simp only [TxnState.exec, bind, Option.bind_eq_some_iff, Option.guard_eq_some',
      exists_const] at he
    obtain ⟨hidle, irt, -, T, -, -, he⟩ := he
    cases he
    have h₁ : Sched L (s.setStack x T.toParent) :=
      h.other rfl rfl (fun _ => id) (fun z hz => by rw [isDead_setStack]; exact hz)
        (fun z hz => .inl (by rwa [isDead_setStack] at hz)) fun _ _ => id
    exact hioctl h₁ hidle rfl isDead_setStack _ (.inl rfl) (by simp)
  | read x =>
    simp only [TxnState.exec, bind, Option.bind_eq_some_iff, Option.guard_eq_some',
      exists_const] at he
    obtain ⟨hidle, he⟩ := he
    cases he
    exact hioctl h hidle rfl (fun _ => rfl) _ (.inl rfl) (by simp)
  | freeBuffer x b =>
    simp only [TxnState.exec, bind, Option.bind_eq_some_iff, Option.guard_eq_some',
      exists_const] at he
    obtain ⟨hidle, B, -, -, -, he⟩ := he
    cases he
    have h₁ : Sched L (s.setBuf b (some { B with allowUserFree := false })) :=
      h.other rfl rfl (fun _ => id) (fun _ => id) (fun _ => .inl) fun _ _ => id
    exact hioctl h₁ hidle rfl (fun _ => rfl) _ (.inr rfl) (by simp)
  | threadExit x fuel =>
    simp only [TxnState.exec, bind, Option.bind_eq_some_iff, Option.guard_eq_some',
      exists_const] at he
    exact h.threadRelease hi (frames_of_idle he.1) (frames_of_idle he.1) he.2
  | procDeath p =>
    cases he
    refine h.other rfl rfl (fun q hq => ?_) (fun _ => id) (fun _ => .inl) fun _ _ => id
    rcases eq_or_ne q p with rfl | hne
    · simp
    · simpa [hne] using hq
  | releaseThread p x fuel =>
    simp only [TxnState.exec, bind, Option.bind_eq_some_iff, Option.guard_eq_some',
      exists_const, TxnState.workerIdle, Bool.and_eq_true, List.isEmpty_iff] at he
    exact h.threadRelease hi he.1.1 he.2.2.1 he.2.2.2
  | releaseNode p n =>
    simp only [TxnState.exec, bind, Option.bind_eq_some_iff, Option.guard_eq_some',
      exists_const, TxnState.workerIdle, Bool.and_eq_true, List.isEmpty_iff] at he
    obtain ⟨⟨hfr, hdead⟩, hp, he⟩ := he
    cases he
    refine h.start hfr [.releaseWork (.node n), .nodeRelease n] (by simp [Act.self])
      (by simp [Act.self]) ?_ (by simp [Act.reads])
    intro l hl
    simp only [List.mem_cons, Act.releaseWork.injEq, reduceCtorEq, List.not_mem_nil, or_self,
      or_false] at hl
    subst hl
    rw [← hi.owners hp] at hdead
    exact hdead
  | releaseTodo p =>
    simp only [TxnState.exec, bind, Option.bind_eq_some_iff, Option.guard_eq_some',
      exists_const, TxnState.workerIdle, Bool.and_eq_true, List.isEmpty_iff] at he
    obtain ⟨⟨hfr, hdead⟩, he⟩ := he
    cases he
    refine h.start hfr [.releaseWork (.proc p)] (by simp [Act.self]) (by simp [Act.self]) ?_
      (List.pairwise_singleton _ _)
    intro l hl
    simp only [List.mem_singleton, Act.releaseWork.injEq] at hl
    subst hl
    exact hdead
  | addProcWork p type =>
    cases he
    exact h.other rfl rfl (fun _ => id) (fun _ => id) (fun _ => .inl) fun n w hw =>
      (mem_enqueue_node hw).resolve_right (by simp)
  | addThreadWork x type deferred =>
    simp only [TxnState.exec, bind, Option.bind_eq_some_iff, Option.guard_eq_some',
      exists_const] at he
    obtain ⟨-, he⟩ := he
    split at he <;> cases he
    · exact h.other rfl rfl (fun _ => id) (fun _ => id) (fun _ => .inl) fun n w hw =>
        (mem_enqueue_node hw).resolve_right (by simp)
    · have hst := SameTasks.enqueueThread (s := s) x (.other type)
      exact h.other rfl rfl (fun _ => id) (fun z hz => by rw [hst.threadDead]; exact hz)
        (fun z hz => .inl (by rwa [hst.threadDead] at hz)) fun n w => mem_enqueueThread_node
  | dropWork l type =>
    cases he
    refine h.other rfl rfl (fun _ => id) (fun _ => id) (fun _ => .inl) fun n w hw => ?_
    rcases eq_or_ne l (.node n) with rfl | hne
    · exact List.mem_of_mem_erase (by simpa using hw)
    · simpa [hne.symm] using hw
  | run a env =>
    simp only [TxnState.exec] at he
    split at he
    · cases he
    · rename_i act rest hfr
      exact h.execAct (fun x hx => hi.self (hfr ▸ List.mem_cons_self) hx) hfr (execAct_cases he)

/-! ## Runs -/

theorem inv_start (L : Layout) : Inv L (start L) ∧ Sched L (start L) := by
  have hcont : (start L).contents = fun _ => [] := by
    funext p; cases p <;> rfl
  have hfree : (start L).freeing = fun _ => [] := rfl
  have hon : ∀ t, ¬ OnList (start L).contents t := by
    rintro t ⟨p, hp⟩; rw [hcont] at hp; cases hp
  have honf : ∀ b, ¬ OnList (start L).freeing b := by
    rintro t ⟨p, hp⟩; rw [hfree] at hp; cases hp
  refine ⟨⟨?_, ?_, by rw [hcont]; exact .empty, fun ht => absurd ⟨_, ht⟩ (hon _),
    by rw [hfree]; exact .empty, fun hb => absurd hb (honf _), fun hb => absurd hb (honf _), ?_, ?_, ?_,
    ?_, ?_⟩, ?_⟩
  · constructor <;> simp [start]
  · constructor <;> simp [start]
  · simp [start]
  · simp [start]
  · simp [start]
  · simp [start]
  · simp [start]
  · constructor <;> simp [start]

/-- The invariants hold in every run. -/
theorem inv_of_reach (h : (txnSys L).Reach s) : Inv L s ∧ Sched L s := by
  refine h.inv (I := fun s => Inv L s ∧ Sched L s) ?_ ?_
  · rintro s rfl
    exact inv_start L
  · rintro s op s' ⟨hi, hs⟩ he
    exact ⟨hi.exec hs he, hs.exec hi he⟩

end Redroid.Binder.Txn
