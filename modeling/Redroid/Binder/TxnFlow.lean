import Redroid.Binder.TxnPhase

/-!
# Who has a buffer, and which asynchronous transaction of a node goes on

* `OwnedBy`: somebody of the process will free the buffer. `Advancing`: the asynchronous transaction in
  flight is at a place from where a read and `BC_FREE_BUFFER` let the next one of its node go on.
* `noLoss`: the steps that drop no transaction of a live process. In a run of such steps every buffer of
  a live process is owned (`owned_of_noLoss`), and a node that has an asynchronous transaction has one
  that advances (`advances_of_noLoss`).
-/

namespace Redroid.Binder.Txn

variable {L : Layout} {s s' s₁ : TxnState} {t u : TxnId} {b b' : BufId} {x y : ThreadId}
  {T : Transaction} {B : Buffer} {a : Actor} {act : Act} {rest new : List Act} {env : Env}
  {l : WorkList} {op : TxnOp} {n : NodeId} {ph ph' : Phase} {ev : Event}

/-! ## Deaths -/

/-- A step of a task kills nobody, and no id is used twice. -/
structure SameDead (s s' : TxnState) : Prop where
  isDead : s'.isDead = s.isDead
  threadDead : ∀ x, (s'.thread x).isDead = (s.thread x).isDead
  nextTxn : s.nextTxn ≤ s'.nextTxn

theorem SameTasks.sameDead (h : SameTasks s s') : SameDead s s' := ⟨h.isDead, h.threadDead, h.nextTxn.ge⟩

theorem SameDead.pop (hp : s.pop y t = some s') : SameDead s s' := by
  obtain ⟨-, hd, -, -, -, -, hthr⟩ := pop_same hp
  obtain ⟨T, -, -, -, rfl⟩ := pop_eq hp
  exact ⟨hd, hthr, le_rfl⟩

theorem SameDead.trans {s₂ : TxnState} (h : SameDead s s₁) (h' : SameDead s₁ s₂) : SameDead s s₂ :=
  ⟨h'.isDead.trans h.isDead, fun x => (h'.threadDead x).trans (h.threadDead x),
    h.nextTxn.trans h'.nextTxn⟩

theorem ActStep.sameDead (h : ActStep L s a rest env act s') : SameDead s s' := by
  have hframes (s₁ : TxnState) (acts : List Act) : SameDead s₁ (s₁.setFrames a acts) :=
    ⟨rfl, fun _ => rfl, le_rfl⟩
  cases h with
  | sendAlloc => exact ⟨rfl, fun _ => rfl, Nat.le_succ _⟩
  | buildReply _ hp =>
    exact (SameDead.pop hp).trans ((SameTasks.enqueueThread _ _).sameDead.trans (hframes _ _))
  | @buildCall x t th T => exact ⟨rfl, isDead_setStack (s := s.setTxn t _), le_rfl⟩
  | accepted _ _ _ _ hpt =>
    exact (binderProcTransaction_spec hpt).1.sameDead.trans (hframes _ _)
  | rejected _ _ _ _ hpt =>
    exact (binderProcTransaction_spec hpt).1.sameDead.trans (hframes _ _)
  | pop hp => exact (SameDead.pop hp).trans (hframes _ _)
  | failedReply _ _ hp =>
    refine (SameDead.pop hp).trans (SameDead.trans ?_ (hframes _ _))
    split
    · exact (SameTasks.enqueueThread _ _).sameDead
    · exact ⟨rfl, fun _ => rfl, le_rfl⟩
  | freeLinked _ _ _ hu =>
    obtain ⟨B, hB, hu⟩ := Option.bind_eq_some_iff.mp hu
    cases hu
    exact ⟨rfl, fun _ => rfl, le_rfl⟩
  | asyncNext =>
    exact ((SameTasks.setTodo _ _).trans ((SameTasks.setTodo _ _).trans
      (selectThread_spec _).1)).sameDead.trans (hframes _ _)
  | @readOther x =>
    exact ((SameTasks.setTodo _ _).trans (SameTasks.setProcessTodo x _)).sameDead.trans (hframes _ _)
  | @readTransaction x =>
    exact ((SameTasks.setTodo _ _).trans (SameTasks.setProcessTodo x _)).sameDead.trans (hframes _ _)
  | @deliveredCall x t T => exact ⟨rfl, isDead_setStack (s := s.setTxn t _), le_rfl⟩
  | _ => exact ⟨rfl, fun _ => rfl, le_rfl⟩

theorem threadRelease_dead {fuel : Nat} (he : s.threadRelease a x fuel = some s') :
    s'.isDead = s.isDead ∧ s'.nextTxn = s.nextTxn ∧
      ∀ z, (s'.thread z).isDead = ((s.thread z).isDead || decide (z = x)) := by
  obtain ⟨-, s₁, hs₁, new, -, rfl⟩ := threadRelease_eq he
  have h₁ := releaseStack_rule (s := s.setThread x { s.thread x with isDead := true })
    (I := fun s₂ _ => s₂.isDead = s.isDead ∧ s₂.nextTxn = s.nextTxn ∧
    s₂.thread = (s.setThread x { s.thread x with isDead := true }).thread) ?_ ⟨rfl, rfl, rfl⟩ hs₁
  · refine ⟨h₁.1, h₁.2.1, fun z => ?_⟩
    rw [TxnState.setFrames_thread, h₁.2.2]
    rcases eq_or_ne z x with rfl | hne
    · simp
    · simp [hne]
  · rintro s₂ t s₃ o ⟨e₁, e₂, e₃⟩ ht
    obtain ⟨-, -, f₃, -, f₅, -, f₇⟩ := ht.same
    exact ⟨f₅.trans e₁, f₃.trans e₂, f₇.trans e₃⟩

/-- The dead stay dead, and a thread dies by its own exit or after its process. -/
theorem exec_dead (he : s.exec L op = some s') :
    (∀ p, s.isDead p = true → s'.isDead p = true) ∧ s.nextTxn ≤ s'.nextTxn ∧
      ∀ x, (s'.thread x).isDead = true → (s.thread x).isDead = true ∨
        s.isDead (L.procOf x) = true ∨ ∃ fuel, op = .threadExit x fuel := by
  have hsame (h : SameDead s s') : (∀ p, s.isDead p = true → s'.isDead p = true) ∧
      s.nextTxn ≤ s'.nextTxn ∧ ∀ x, (s'.thread x).isDead = true → (s.thread x).isDead = true ∨
        s.isDead (L.procOf x) = true ∨ ∃ fuel, op = .threadExit x fuel :=
    ⟨fun p hp => (congrFun h.isDead p).trans hp, h.nextTxn, fun x hx => .inl (h.threadDead x ▸ hx)⟩
  cases op with
  | threadExit x fuel =>
    simp only [TxnState.exec, bind, Option.bind_eq_some_iff, Option.guard_eq_some',
      exists_const] at he
    obtain ⟨hd, hn, hthr⟩ := threadRelease_dead he.2
    refine ⟨fun p hp => (congrFun hd p).trans hp, hn.ge, fun z hz => ?_⟩
    rw [hthr, Bool.or_eq_true, decide_eq_true_eq] at hz
    rcases hz with hz | rfl
    · exact .inl hz
    · exact .inr (.inr ⟨fuel, rfl⟩)
  | procDeath p =>
    cases he
    refine ⟨fun q hq => ?_, le_rfl, fun z hz => .inl hz⟩
    rcases eq_or_ne q p with rfl | hne
    · simp
    · simpa [hne] using hq
  | releaseThread p x fuel =>
    simp only [TxnState.exec, bind, Option.bind_eq_some_iff, Option.guard_eq_some',
      exists_const, TxnState.workerIdle, Bool.and_eq_true] at he
    obtain ⟨⟨-, hp⟩, rfl, -, he⟩ := he
    obtain ⟨hd, hn, hthr⟩ := threadRelease_dead he
    refine ⟨fun p hp => (congrFun hd p).trans hp, hn.ge, fun z hz => ?_⟩
    rw [hthr, Bool.or_eq_true, decide_eq_true_eq] at hz
    rcases hz with hz | rfl
    · exact .inl hz
    · exact .inr (.inl hp)
  | run a env =>
    simp only [TxnState.exec] at he
    split at he
    · cases he
    · exact hsame (execAct_cases he).sameDead
  | addThreadWork x type deferred =>
    simp only [TxnState.exec, bind, Option.bind_eq_some_iff, Option.guard_eq_some',
      exists_const] at he
    obtain ⟨-, he⟩ := he
    split at he <;> cases he
    · exact hsame ⟨rfl, fun _ => rfl, le_rfl⟩
    · exact hsame (SameTasks.enqueueThread _ _).sameDead
  | reply x oneWay =>
    simp only [TxnState.exec, bind, Option.bind_eq_some_iff, Option.guard_eq_some',
      exists_const] at he
    obtain ⟨-, irt, -, T, -, -, he⟩ := he
    cases he
    exact hsame ⟨rfl, isDead_setStack (s := s), le_rfl⟩
  | transaction x n oneWay =>
    simp only [TxnState.exec, bind, Option.bind_eq_some_iff, Option.guard_eq_some',
      exists_const] at he
    obtain ⟨-, tp, -, he⟩ := he
    cases he
    exact hsame ⟨rfl, fun _ => rfl, le_rfl⟩
  | freeBuffer x b =>
    simp only [TxnState.exec, bind, Option.bind_eq_some_iff, Option.guard_eq_some',
      exists_const] at he
    obtain ⟨-, B, -, -, -, he⟩ := he
    cases he
    exact hsame ⟨rfl, fun _ => rfl, le_rfl⟩
  | releaseNode p n =>
    simp only [TxnState.exec, bind, Option.bind_eq_some_iff, Option.guard_eq_some',
      exists_const] at he
    obtain ⟨-, -, he⟩ := he
    cases he
    exact hsame ⟨rfl, fun _ => rfl, le_rfl⟩
  | read | releaseTodo =>
    simp only [TxnState.exec, bind, Option.bind_eq_some_iff, Option.guard_eq_some',
      exists_const] at he
    obtain ⟨-, he⟩ := he
    cases he
    exact hsame ⟨rfl, fun _ => rfl, le_rfl⟩
  | addProcWork | dropWork =>
    cases he
    exact hsame ⟨rfl, fun _ => rfl, le_rfl⟩

/-! ## Runs that lose nothing -/

/-- Somebody has the buffer and can free it: a task that sends, reads or frees it, a work list with
its transaction, or user space. -/
def Owned (s : TxnState) (b : BufId) : Prop := ∃ ph, InPhase s b ph

/-- The process that a work list is of. -/
def WorkList.procOf (L : Layout) : WorkList → ProcId
  | .proc p => p
  | .thread x => L.procOf x
  | .node n => L.ownerOf n

/-- The buffer of the transaction `t` meets `Q`. -/
def TxnState.carries (s : TxnState) (Q : Buffer → Bool) (t : TxnId) : Bool :=
  (((s.txn t).bind (·.buffer)).bind s.buf).any Q

/-- The step loses no transaction whose buffer meets `Q`: the copy of such a transaction to user
space succeeds, and no thread exits while it has one on its list. -/
def noLoss (Q : Buffer → Bool) (s : TxnState) : TxnOp → Bool
  | .run a env =>
    match s.frames a with
    | .copy _ t :: _ => env.ok || !s.carries Q t
    | _ => true
  | .threadExit x _ => (s.contents (.list (.thread x))).all fun t => !s.carries Q t
  | _ => true

/-- If the transaction is on the list of a thread, the thread is alive. -/
def OnLive (s : TxnState) (ph : Phase) : Prop :=
  ∀ y t, ph = .queued (.thread y) t → (s.thread y).isDead = false

/-- Somebody has the buffer and can free it, and the work list of its transaction is one of the process `p`
or of a live thread of it. -/
def OwnedBy (L : Layout) (s : TxnState) (p : ProcId) (b : BufId) : Prop :=
  ∃ ph, InPhase s b ph ∧ OnLive s ph ∧ ∀ l t, ph = .queued l t → l.procOf L = p

/-- Every buffer of a live process that meets `Q` is owned. -/
def Kept (Q : Buffer → Bool) (s : TxnState) : Prop :=
  ∀ {b B}, s.buf b = some B → Q B = true → s.isDead B.proc = false →
    ∃ ph, InPhase s b ph ∧ OnLive s ph

theorem InPhase.carries {Q : Buffer → Bool} (hi : Inv L s) (hB : s.buf b = some B) (hQ : Q B = true)
    (h : Linked s b t) : s.carries Q t = true := by
  obtain ⟨T, hT, hb⟩ := h.txn hi
  simp [TxnState.carries, hT, hb, hB, hQ]

theorem Linked.proc (hi : Inv L s) (h : Linked s b t) (hB : s.buf b = some B) {p : Place}
    (ht : t ∈ s.contents p) : AtPlace L B p := by
  obtain ⟨T, b', B', hl, -, hat⟩ := hi.live ht
  cases h.inj hi ⟨B', hl.buf, hl.transaction⟩
  have hB' := hl.buf
  rw [hB] at hB'
  cases hB'
  exact hat

theorem Linked.owner (hi : Inv L s) (h : Linked s b t) (hB : s.buf b = some B)
    (ht : OnList s.contents t) (hn : B.targetNode = some n) : L.ownerOf n = B.proc := by
  obtain ⟨T, b', B', hl, h', -⟩ := hi.linked ht
  cases h.inj hi h'
  have hB' := hl.buf
  rw [hB] at hB'
  cases hB'
  exact hl.owner n hn

theorem Same.buffer (h : Same s s' b) {B' : Buffer} (hB' : s'.buf b = some B') :
    ∃ B, s.buf b = some B ∧ B.kind = B'.kind := by
  have hk := h.kind
  rw [hB', Option.map_some, eq_comm, Option.map_eq_some_iff] at hk
  exact hk

theorem InPhase.buf (h : InPhase s b ph) : ∃ B, s.buf b = some B := by
  cases ph with
  | sending | queued | reading => exact ⟨_, h.1.choose_spec.1⟩
  | user => exact ⟨_, h.choose_spec.1⟩
  | freeing | released => exact Option.isSome_iff_exists.mp h.1

/-- A step that loses no transaction with a buffer that meets `Q` keeps them all. -/
theorem Kept.exec {Q : Buffer → Bool} (hQ : ∀ {B B'}, B.kind = B'.kind → Q B = Q B')
    (hk : Kept Q s) (hi : Inv L s) (hs : Sched L s) (hc : noLoss Q s op = true)
    (he : s.exec L op = some s') : Kept Q s' := by
  intro b B' hB' hQ' hlive'
  obtain ⟨hdead, -, hthr⟩ := exec_dead he
  -- the buffer was owned before, and its thread is not the one that exits
  have hold {B : Buffer} (hB : s.buf b = some B) (hkind : B.kind = B'.kind) :
      Q B = true ∧ s.isDead B.proc = false ∧ ∃ ph, InPhase s b ph ∧ OnLive s ph ∧ OnLive s' ph := by
    have hproc : B.proc = B'.proc := congrArg Prod.fst hkind
    have hQB : Q B = true := (hQ hkind).trans hQ'
    have hlive : s.isDead B.proc = false := by
      rw [← Bool.not_eq_true]
      intro hd
      rw [hproc] at hd
      rw [hdead _ hd] at hlive'
      cases hlive'
    obtain ⟨ph, hph, hon⟩ := hk hB hQB hlive
    refine ⟨hQB, hlive, ph, hph, hon, ?_⟩
    rintro y t rfl
    rw [← Bool.not_eq_true]
    intro hd
    have hmem := mem_contents_list.mpr hph.2
    rcases hthr y hd with hd | hd | ⟨fuel, rfl⟩
    · rw [hon y t rfl] at hd; cases hd
    · rw [show L.procOf y = B.proc from hph.1.proc hi hB hmem, hlive] at hd; cases hd
    · have := List.all_eq_true.mp hc t hmem
      rw [InPhase.carries hi hB hQB hph.1] at this
      cases this
  have hsame (h : Same s s' b) : ∃ ph, InPhase s' b ph ∧ OnLive s' ph := by
    obtain ⟨B, hB, hkind⟩ := h.buffer hB'
    obtain ⟨-, -, ph, hph, -, hon⟩ := hold hB hkind
    exact ⟨ph, (h.phase ph).mpr hph, hon⟩
  have hmoves {b₀ : BufId} {p q : Phase} (h : Moves s s' b₀ p q) (hq : OnLive s' q) :
      ∃ ph, InPhase s' b ph ∧ OnLive s' ph := by
    rcases eq_or_ne b b₀ with rfl | hne
    · exact ⟨q, h.after, hq⟩
    · exact hsame (h.other b hne)
  have hlost {b₀ : BufId} {p : Phase} (h : Loses s s' b₀ p)
      (hno : ∀ B, s.buf b₀ = some B → Q B = true → s.isDead B.proc = false → OnLive s p → False) :
      ∃ ph, InPhase s' b ph ∧ OnLive s' ph := by
    refine hsame (h.other b ?_)
    rintro rfl
    have hkind := h.kind
    rw [hB', Option.map_some, eq_comm, Option.map_eq_some_iff] at hkind
    obtain ⟨B, hB, hkind⟩ := hkind
    obtain ⟨hQB, hlive, ph, hph, hon, -⟩ := hold hB hkind
    exact hno B hB hQB hlive (hph.unique hi h.before ▸ hon)
  have hnot {q : Phase} (h : ∀ y t, q ≠ .queued (.thread y) t) : OnLive s' q :=
    fun y t h' => absurd h' (h y t)
  obtain ⟨ev, hbs⟩ : ∃ ev, BufStep L s op s' ev := ⟨_, exec_bufStep hi hs he⟩
  cases hbs with
  | stay h => exact hsame (h b)
  | alloc b₀ t _ _ hph hother =>
    rcases eq_or_ne b b₀ with rfl | hne
    · exact ⟨_, hph, hnot (by simp)⟩
    · exact hsame (hother b hne)
  | reject n _ h => exact hsame (h b)
  | abort b₀ t _ hnone hother =>
    refine hsame (hother b ?_)
    rintro rfl
    rw [hB'] at hnone; cases hnone
  | accept t b₀ B l ev _ hm _ hl =>
    refine hmoves hm ?_
    rintro y t ⟨⟩
    exact hl y rfl
  | wait t b₀ B n _ _ _ _ hm => exact hmoves hm (hnot (by simp))
  | take t b₀ l _ hm => exact hmoves hm (hnot (by simp))
  | drop t b₀ l hown h =>
    refine hlost h fun B hB hQB hlive hon => ?_
    have hmem := mem_contents_list.mpr h.before.2
    have hat := h.before.1.proc hi hB hmem
    cases l with
    | proc p =>
      rw [show p = B.proc from hat] at hown
      rw [show s.isDead B.proc = true from hown] at hlive; cases hlive
    | thread y =>
      have := hon y t rfl
      rw [show (s.thread y).isDead = true from hown] at this; cases this
    | node n =>
      rw [show s.isDead B.proc = true from (h.before.1.owner hi hB ⟨_, hmem⟩ hat.2) ▸ hown] at hlive
      cases hlive
  | lose a env x t rest b₀ hop hok hfr h =>
    refine hlost h fun B hB hQB hlive hon => ?_
    subst hop
    simp [noLoss, hfr, hok, InPhase.carries hi hB hQB h.before.1] at hc
  | toUser b₀ t hm => exact hmoves hm (hnot (by simp))
  | toFree b₀ p _ hm => exact hmoves hm (hnot (by simp))
  | last b₀ B n _ _ _ _ hm => exact hmoves hm (hnot (by simp))
  | next b₀ B n t b₂ _ _ _ _ _ _ _ hrel _ hq _ hother =>
    by_cases h₀ : b = b₀
    · exact ⟨.released, h₀ ▸ hrel, hnot (by simp)⟩
    by_cases h₂ : b = b₂
    · exact ⟨_, h₂ ▸ hq, hnot (by simp)⟩
    exact hsame (hother b h₀ h₂)
  | pass b₀ B _ _ hm => exact hmoves hm (hnot (by simp))
  | free b₀ _ hnone hother =>
    refine hsame (hother b ?_)
    rintro rfl
    rw [hB'] at hnone; cases hnone

theorem kept_start (Q : Buffer → Bool) (L : Layout) : Kept Q (start L) := by
  intro b B hB
  cases hB

theorem kept_of_noLoss {Q : Buffer → Bool} (hQ : ∀ {B B'}, B.kind = B'.kind → Q B = Q B')
    (h : (txnSys L).ReachIf (fun s op => noLoss Q s op = true) s) : Kept Q s := by
  refine (h.inv (I := fun s => (Inv L s ∧ Sched L s) ∧ Kept Q s) ?_ ?_).2
  · rintro s rfl
    exact ⟨inv_start L, kept_start Q L⟩
  · rintro s op s' ⟨⟨hi, hs⟩, hk⟩ hc he
    exact ⟨⟨hi.exec hs he, hs.exec hi he⟩, hk.exec hQ hi hs hc he⟩

/-- The list that the transaction of a buffer is on is one of the process of the buffer. -/
theorem InPhase.procOf (hi : Inv L s) (hB : s.buf b = some B) (h : InPhase s b (.queued l t)) :
    l.procOf L = B.proc := by
  obtain ⟨hl, hmem⟩ := h
  have hat := hl.proc hi hB (mem_contents_list.mpr hmem)
  cases l with
  | proc p => exact hat
  | thread x => exact hat
  | node n =>
    obtain ⟨-, hn⟩ := hat
    exact hl.owner hi hB ⟨_, mem_contents_list.mpr hmem⟩ hn

/-- In a run in which no copy to user space fails and no thread exits with a transaction on its
list, every buffer of a live process is owned. -/
theorem owned_of_noLoss (h : (txnSys L).ReachIf (fun s op => noLoss (fun _ => true) s op = true) s)
    (hB : s.buf b = some B) (hlive : s.isDead B.proc = false) : OwnedBy L s B.proc b := by
  obtain ⟨ph, hph, hon⟩ := kept_of_noLoss (fun _ => rfl) h hB rfl hlive
  refine ⟨ph, hph, hon, ?_⟩
  rintro l t rfl
  exact hph.procOf (inv_of_reach h.reach).1 hB

/-- The thread 0 and the thread 1, each in a process of its own; the nodes are of the process 1. -/
def twoProcs : Layout := ⟨fun x => x, fun _ => 1⟩

/-- The thread `x` goes on, `k` times, and all succeeds. -/
def goOn (x : ThreadId) (k : Nat) : List TxnOp := List.replicate k (.run (.thread x) ⟨true, true, 8⟩)

/-- The thread 0 sends an asynchronous transaction to the node 0. -/
def sendOneWay : List TxnOp := .transaction 0 0 true :: goOn 0 4

/-- The thread 1 reads it, up to the copy to user space. -/
def readUpToCopy : List TxnOp := .read 1 :: goOn 1 4

/-- The copy fails, and the thread 1 returns. -/
def copyFault : List TxnOp := .run (.thread 1) ⟨false, true, 8⟩ :: goOn 1 2

/-- The state after these: the read and the transaction are gone, and the buffer is still there. -/
def afterFault : TxnState :=
  (Sys.execIf (TxnState.exec twoProcs) (fun _ _ => True) (start twoProcs)
    (sendOneWay ++ readUpToCopy ++ copyFault)).get (by decide)

theorem afterFault_reach : (txnSys twoProcs).Reach afterFault :=
  Sys.ReachIf.execIf (.init rfl) (Option.some_get _).symm

theorem afterFault_frames (a : Actor) : afterFault.frames a = [] := by
  match a with
  | .thread 0 | .thread 1 | .thread (_ + 2) | .worker _ => rfl

theorem afterFault_todo (l : WorkList) : afterFault.todo l = [] := by
  match l with
  | .thread 0 | .thread 1 | .thread (_ + 2) => rfl
  | .proc 0 | .proc 1 | .proc (_ + 2) => rfl
  | .node 0 | .node (_ + 1) => rfl

theorem afterFault_not_inPhase (ph : Phase) : ¬ InPhase afterFault 0 ph := by
  have hno (k : Token) : ¬ Acting afterFault k := by
    rintro ⟨a, act, hact, -⟩
    rw [afterFault_frames] at hact
    cases hact
  refine not_inPhase (fun u hu _ => ?_) (fun B hB => ?_) ⟨hno _, hno _⟩ ph
  · obtain ⟨B, hB, ht⟩ := hu
    cases hB
    cases ht
  · cases hB
    rfl

/-- No task does anything, nothing is queued, user space may not free the buffer, and it is still
allocated. -/
theorem lost_afterFault : (txnSys twoProcs).Reach afterFault ∧ (∀ a, afterFault.frames a = []) ∧
    (∀ l, afterFault.todo l = []) ∧ afterFault.isDead 1 = false ∧
    afterFault.buf 0 = some ⟨1, true, some 0, none, false⟩ ∧ ¬ Owned afterFault 0 :=
  ⟨afterFault_reach, afterFault_frames, afterFault_todo, rfl, rfl,
    fun ⟨ph, h⟩ => afterFault_not_inPhase ph h⟩

/-- The state after the transaction has reached user space. -/
def afterDelivery : TxnState :=
  (Sys.execIf (TxnState.exec twoProcs) (fun s op => noLoss (fun _ => true) s op = true)
    (start twoProcs) (sendOneWay ++ readUpToCopy ++ goOn 1 3)).get (by decide)

theorem owned_afterDelivery : afterDelivery.buf 0 = some ⟨1, true, some 0, none, true⟩ ∧
    afterDelivery.isDead 1 = false ∧ OwnedBy twoProcs afterDelivery 1 0 :=
  ⟨rfl, rfl, owned_of_noLoss (L := twoProcs) (B := ⟨1, true, some 0, none, true⟩)
    (Sys.ReachIf.execIf (.init rfl) (Option.some_get _).symm) rfl rfl⟩

/-! ## Asynchronous transactions in flight -/

/-- An asynchronous transaction of the node `n` has this buffer. -/
def IsAsync (s : TxnState) (n : NodeId) (b : BufId) : Prop :=
  ∃ B, s.buf b = some B ∧ B.asyncTransaction = true ∧ B.targetNode = some n

/-- On its way to user space or there, until `binder_free_buf` lets the next one go on. -/
def Phase.inFlight : Phase → Bool
  | .queued (.proc _) _ | .queued (.thread _) _ | .reading _ | .user | .freeing => true
  | .queued (.node _) _ | .sending _ | .released => false

/-- The flag of a node of a live process stands for an asynchronous transaction that is in flight,
or has been lost in flight. -/
def Flagged (L : Layout) (s : TxnState) : Prop :=
  ∀ {n}, (s.node n).hasAsyncTransaction = true → s.isDead (L.ownerOf n) = false →
    ∃ b, IsAsync s n b ∧ ∀ ph, InPhase s b ph → ph.inFlight = true

theorem IsAsync.of_kind (h : IsAsync s n b)
    (hk : (s'.buf b).map Buffer.kind = (s.buf b).map Buffer.kind) : IsAsync s' n b := by
  obtain ⟨B, hB, ha, hn⟩ := h
  rw [hB, Option.map_some, Option.map_eq_some_iff] at hk
  obtain ⟨B', hB', hk⟩ := hk
  rw [Buffer.kind, Buffer.kind, Prod.mk.injEq, Prod.mk.injEq] at hk
  exact ⟨B', hB', hk.2.1.trans ha, hk.2.2.trans hn⟩

theorem IsAsync.eq (h : IsAsync s n b) (hB : s.buf b = some B) :
    B.asyncTransaction = true ∧ B.targetNode = some n := by
  obtain ⟨B', hB', h'⟩ := h
  rw [hB] at hB'
  cases hB'
  exact h'

theorem Flagged.exec (hf : Flagged L s) (hi : Inv L s) (hs : Sched L s)
    (he : s.exec L op = some s') : Flagged L s' := by
  have hi' := hi.exec hs he
  intro n hn hlive'
  have hlive : s.isDead (L.ownerOf n) = false := by
    rw [← Bool.not_eq_true]
    intro hd
    rw [(exec_dead he).1 _ hd] at hlive'
    cases hlive'
  -- the buffer of the flag stays in its phase
  have hsame {b : BufId} (h : IsAsync s n b ∧ ∀ ph, InPhase s b ph → ph.inFlight = true)
      (h' : Same s s' b) : ∃ b, IsAsync s' n b ∧ ∀ ph, InPhase s' b ph → ph.inFlight = true :=
    ⟨b, h.1.of_kind h'.kind, fun ph hph => h.2 ph ((h'.phase ph).mp hph)⟩
  -- or it goes from one phase in flight to another, or another buffer moves
  have hmoves {b₀ : BufId} {p q : Phase} (hm : Moves s s' b₀ p q)
      (hq : p.inFlight = true → IsAsync s n b₀ → q.inFlight = true)
      (hflag : (s.node n).hasAsyncTransaction = true) :
      ∃ b, IsAsync s' n b ∧ ∀ ph, InPhase s' b ph → ph.inFlight = true := by
    obtain ⟨b, hb⟩ := hf hflag hlive
    rcases eq_or_ne b b₀ with rfl | hne
    · refine ⟨b, hb.1.of_kind hm.kind, fun ph hph => ?_⟩
      rw [hph.unique hi' hm.after]
      exact hq (hb.2 _ hm.before) hb.1
    · exact hsame hb (hm.other b hne)
  have hlost {b₀ : BufId} {p : Phase} (hm : Loses s s' b₀ p)
      (hflag : (s.node n).hasAsyncTransaction = true) :
      ∃ b, IsAsync s' n b ∧ ∀ ph, InPhase s' b ph → ph.inFlight = true := by
    obtain ⟨b, hb⟩ := hf hflag hlive
    rcases eq_or_ne b b₀ with rfl | hne
    · exact ⟨b, hb.1.of_kind hm.kind, fun ph hph => absurd hph (hm.after ph)⟩
    · exact hsame hb (hm.other b hne)
  -- a buffer that is not in flight comes or goes
  have hother {b₀ : BufId} (hno : s.buf b₀ = none ∨ ∃ p, InPhase s b₀ p ∧ p.inFlight = false)
      (h : ∀ b', b' ≠ b₀ → Same s s' b') (hflag : (s.node n).hasAsyncTransaction = true) :
      ∃ b, IsAsync s' n b ∧ ∀ ph, InPhase s' b ph → ph.inFlight = true := by
    obtain ⟨b, hb⟩ := hf hflag hlive
    refine hsame hb (h b ?_)
    rintro rfl
    rcases hno with hno | ⟨p, hp, hno⟩
    · obtain ⟨B, hB, -⟩ := hb.1
      rw [hno] at hB; cases hB
    · rw [hb.2 p hp] at hno; cases hno
  obtain ⟨ev, hbs⟩ : ∃ ev, BufStep L s op s' ev := ⟨_, exec_bufStep hi hs he⟩
  cases hbs with
  | stay h hfl =>
    obtain ⟨b, hb⟩ := hf (hfl n ▸ hn) hlive
    exact hsame hb (h b)
  | alloc b₀ t hnone _ _ h hfl => exact hother (.inl hnone) h (hfl n ▸ hn)
  | reject m hd h hfl =>
    rw [hfl, Bool.or_eq_true, decide_eq_true_eq] at hn
    rcases hn with hn | rfl
    · obtain ⟨b, hb⟩ := hf hn hlive
      exact hsame hb (h b)
    · rw [hd] at hlive; cases hlive
  | abort b₀ t hp _ h hfl => exact hother (.inr ⟨_, hp, rfl⟩) h (hfl n ▸ hn)
  | accept t b₀ B l ev hB hm hl _ _ _ hfl =>
    rw [hfl, Bool.or_eq_true, Bool.and_eq_true, beq_iff_eq] at hn
    have hq : (Phase.queued l t).inFlight = true := by
      cases l with
      | proc | thread => rfl
      | node m => exact absurd rfl (hl m)
    rcases hn with hn | ⟨ha, hn⟩
    · exact hmoves hm (fun _ _ => hq) hn
    · refine ⟨b₀, IsAsync.of_kind ⟨B, hB, ha, hn⟩ hm.kind, fun ph hph => ?_⟩
      rw [hph.unique hi' hm.after]
      exact hq
  | wait t b₀ B m _ _ _ _ hm hfl => exact hmoves hm (fun h => by cases h) (hfl n ▸ hn)
  | take t b₀ l _ hm hfl => exact hmoves hm (fun _ _ => rfl) (hfl n ▸ hn)
  | drop t b₀ l _ h hfl => exact hlost h (hfl n ▸ hn)
  | lose a env x t rest b₀ _ _ _ h hfl => exact hlost h (hfl n ▸ hn)
  | toUser b₀ t hm hfl => exact hmoves hm (fun _ _ => rfl) (hfl n ▸ hn)
  | toFree b₀ p _ hm hfl => exact hmoves hm (fun _ _ => rfl) (hfl n ▸ hn)
  | last b₀ B m hB ha hm' _ hm hfl =>
    rw [hfl, Bool.and_eq_true, Bool.not_eq_true', decide_eq_false_iff_not] at hn
    refine hmoves hm (fun _ h => ?_) hn.1
    have := (h.eq hB).2
    rw [hm'] at this
    exact absurd (Option.some.inj this).symm hn.2
  | next b₀ B m t b₂ hB _ hm' _ _ _ _ _ hq₂ hq₂' hkind h hfl =>
    obtain ⟨B₂, hB₂⟩ := hq₂.buf
    have hat := hq₂.1.proc hi hB₂ (mem_contents_list.mpr hq₂.2)
    rcases eq_or_ne n m with rfl | hne
    · refine ⟨b₂, IsAsync.of_kind ⟨B₂, hB₂, hat⟩ (hkind b₂), fun ph hph => ?_⟩
      rw [hph.unique hi' hq₂']
      rfl
    · obtain ⟨b, hb⟩ := hf (hfl n ▸ hn) hlive
      refine hsame hb (h b ?_ ?_)
      · rintro rfl
        have := (hb.1.eq hB).2
        rw [hm'] at this
        exact hne (Option.some.inj this).symm
      · rintro rfl
        have := (hb.1.eq hB₂).2
        rw [hat.2] at this
        exact hne (Option.some.inj this).symm
  | pass b₀ B hB hno hm hfl =>
    refine hmoves hm (fun _ h => ?_) (hfl n ▸ hn)
    obtain ⟨ha, hn⟩ := h.eq hB
    rcases hno with hno | hno
    · rw [hno] at ha; cases ha
    · rw [hno] at hn; cases hn
  | free b₀ hp _ h hfl => exact hother (.inr ⟨_, hp, rfl⟩) h (hfl n ▸ hn)

/-- What a buffer is for does not change, and only `binder_transaction` allocates one. -/
theorem BufStep.kind (h : BufStep L s op s' ev) {B' : Buffer} (hB' : s'.buf b = some B') :
    (∃ B, s.buf b = some B ∧ B.kind = B'.kind) ∨ ∃ t, InPhase s' b (.sending t) := by
  have hold (h : (s'.buf b).map Buffer.kind = (s.buf b).map Buffer.kind) :
      (∃ B, s.buf b = some B ∧ B.kind = B'.kind) ∨ ∃ t, InPhase s' b (.sending t) := by
    rw [hB', Option.map_some, eq_comm, Option.map_eq_some_iff] at h
    exact .inl h
  have hmoves {b₀ : BufId} (hk : (s'.buf b₀).map Buffer.kind = (s.buf b₀).map Buffer.kind)
      (h : ∀ b', b' ≠ b₀ → Same s s' b') :
      (∃ B, s.buf b = some B ∧ B.kind = B'.kind) ∨ ∃ t, InPhase s' b (.sending t) := by
    rcases eq_or_ne b b₀ with rfl | hne
    · exact hold hk
    · exact hold (h b hne).kind
  have hfreed {b₀ : BufId} (hnone : s'.buf b₀ = none) (h : ∀ b', b' ≠ b₀ → Same s s' b') :
      (∃ B, s.buf b = some B ∧ B.kind = B'.kind) ∨ ∃ t, InPhase s' b (.sending t) := by
    refine hold (h b ?_).kind
    rintro rfl
    rw [hB'] at hnone; cases hnone
  cases h with
  | stay h => exact hold (h b).kind
  | alloc b₀ t _ _ hph h =>
    rcases eq_or_ne b b₀ with rfl | hne
    · exact .inr ⟨t, hph⟩
    · exact hold (h b hne).kind
  | reject n _ h => exact hold (h b).kind
  | abort b₀ t _ hnone h => exact hfreed hnone h
  | accept t b₀ B l ev _ hm => exact hmoves hm.kind hm.other
  | wait t b₀ B n _ _ _ _ hm => exact hmoves hm.kind hm.other
  | take t b₀ l _ hm => exact hmoves hm.kind hm.other
  | drop t b₀ l _ hm => exact hmoves hm.kind hm.other
  | lose a env x t rest b₀ _ _ _ hm => exact hmoves hm.kind hm.other
  | toUser b₀ t hm => exact hmoves hm.kind hm.other
  | toFree b₀ p _ hm => exact hmoves hm.kind hm.other
  | last b₀ B m _ _ _ _ hm => exact hmoves hm.kind hm.other
  | next b₀ B m t b₂ _ _ _ _ _ _ _ _ _ _ hkind => exact hold (hkind b)
  | pass b₀ B _ _ hm => exact hmoves hm.kind hm.other
  | free b₀ _ hnone h => exact hfreed hnone h

/-- A buffer is in the process that owns its node. -/
def NodeOwners (L : Layout) (s : TxnState) : Prop :=
  ∀ {b B n}, s.buf b = some B → B.targetNode = some n → L.ownerOf n = B.proc

theorem NodeOwners.exec (h : NodeOwners L s) (hi : Inv L s) (hs : Sched L s)
    (he : s.exec L op = some s') : NodeOwners L s' := by
  intro b B n hB hn
  rcases (exec_bufStep hi hs he).kind hB with ⟨B₀, hB₀, hk⟩ | ⟨t, hph⟩
  · rw [Buffer.kind, Buffer.kind, Prod.mk.injEq, Prod.mk.injEq] at hk
    rw [← hk.1]
    exact h hB₀ (hk.2.2.trans hn)
  · exact hph.1.owner (hi.exec hs he) hB (Acting.onList (.inl hph.2)) hn

theorem flagged_of_reach (h : (txnSys L).Reach s) : Flagged L s ∧ NodeOwners L s := by
  refine (h.inv (I := fun s => (Inv L s ∧ Sched L s) ∧ Flagged L s ∧ NodeOwners L s) ?_ ?_).2
  · rintro s rfl
    refine ⟨inv_start L, ?_, ?_⟩
    · intro n hn
      cases hn
    · intro b B n hB
      cases hB
  · rintro s op s' ⟨⟨hi, hs⟩, hf, ho⟩ he
    exact ⟨⟨hi.exec hs he, hs.exec hi he⟩, hf.exec hi hs he, ho.exec hi hs he⟩

/-- From here a read and `BC_FREE_BUFFER` in the process `p` let the next transaction go on. -/
def Phase.Advancing (L : Layout) (s : TxnState) (p : ProcId) : Phase → Prop
  | .queued (.proc q) _ => q = p
  | .queued (.thread y) _ => L.procOf y = p ∧ (s.thread y).isDead = false
  | .reading _ | .user | .freeing => True
  | .queued (.node _) _ | .sending _ | .released => False

/-- One-way delivery of the node `n` of the process `p` goes on. -/
def Advances (L : Layout) (s : TxnState) (n : NodeId) (p : ProcId) : Prop :=
  ∃ b B ph, s.buf b = some B ∧ B.asyncTransaction = true ∧ B.targetNode = some n ∧ B.proc = p ∧
    InPhase s b ph ∧ ph.Advancing L s p

/-- In a run in which no copy of an asynchronous transaction to user space fails and no thread
exits with one on its list, one-way delivery never stalls. -/
theorem advances_of_noLoss {p : ProcId}
    (h : (txnSys L).ReachIf (fun s op => noLoss (·.asyncTransaction) s op = true) s)
    (hp : (s.node n).proc = some p) (hlive : s.isDead p = false)
    (hflag : (s.node n).hasAsyncTransaction = true) : Advances L s n p := by
  obtain ⟨hi, -⟩ := inv_of_reach h.reach
  obtain ⟨hf, ho⟩ := flagged_of_reach h.reach
  have hown := hi.owners hp
  obtain ⟨b, ⟨B, hB, ha, hn⟩, hph⟩ := hf hflag (hown ▸ hlive)
  have hproc : B.proc = p := (ho hB hn).symm.trans hown
  have hkind {B B' : Buffer} (hk : B.kind = B'.kind) : B.asyncTransaction = B'.asyncTransaction := by
    rw [Buffer.kind, Buffer.kind, Prod.mk.injEq, Prod.mk.injEq] at hk
    exact hk.2.1
  obtain ⟨ph, hin, hon⟩ := kept_of_noLoss hkind h hB ha (hproc ▸ hlive)
  refine ⟨b, B, ph, hB, ha, hn, hproc, hin, ?_⟩
  have hfl := hph ph hin
  cases ph with
  | queued l t =>
    have hat := hin.1.proc hi hB (mem_contents_list.mpr hin.2)
    cases l with
    | proc q => exact (show q = B.proc from hat).trans hproc
    | thread y => exact ⟨(show L.procOf y = B.proc from hat).trans hproc, hon y t rfl⟩
    | node m => cases hfl
  | reading | user | freeing => trivial
  | sending | released => cases hfl

theorem noLoss_mono {Q : Buffer → Bool} (h : noLoss (fun _ => true) s op = true) :
    noLoss Q s op = true := by
  have hc (t : TxnId) : s.carries Q t = true → s.carries (fun _ => true) t = true := by
    intro ht
    simp only [TxnState.carries, Option.any_eq_true] at ht ⊢
    obtain ⟨B, hB, -⟩ := ht
    exact ⟨B, hB, trivial⟩
  cases op with
  | run a env =>
    simp only [noLoss] at h ⊢
    split at h
    · rw [Bool.or_eq_true, Bool.not_eq_true', ← Bool.not_eq_true] at h ⊢
      exact h.imp_right fun h h' => h (hc _ h')
    · rfl
  | threadExit x fuel =>
    simp only [noLoss, List.all_eq_true, Bool.not_eq_true', ← Bool.not_eq_true] at h ⊢
    exact fun t ht h' => h t ht (hc t h')
  | _ => rfl

/-- The node 0 still has the flag, and nothing will clear it. -/
theorem stalled_afterFault : (txnSys twoProcs).Reach afterFault ∧ afterFault.isDead 1 = false ∧
    afterFault.node 0 = ⟨some 1, true⟩ ∧ ¬ Advances twoProcs afterFault 0 1 := by
  refine ⟨afterFault_reach, rfl, rfl, ?_⟩
  rintro ⟨b, B, ph, hB, -, -, -, hph, -⟩
  match b with
  | 0 => exact afterFault_not_inPhase ph hph
  | b + 1 => cases hB

theorem advances_afterDelivery : (afterDelivery.node 0) = ⟨some 1, true⟩ ∧
    afterDelivery.isDead 1 = false ∧ Advances twoProcs afterDelivery 0 1 :=
  ⟨rfl, rfl, advances_of_noLoss (L := twoProcs)
    (Sys.ReachIf.mono (fun _ _ => noLoss_mono)
      (Sys.ReachIf.execIf (.init rfl) (Option.some_get _).symm)) rfl rfl rfl⟩

end Redroid.Binder.Txn
