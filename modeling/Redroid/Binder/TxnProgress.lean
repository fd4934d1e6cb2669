import Redroid.Binder.TxnBacked
import Redroid.Binder.TxnOrder

/-!
# Steps that are always possible

* `Closes`: a process dies, as its file is released, when none of its threads is in an ioctl. In runs
  of such deaths a node has a process until that dies, and a buffer is freed by its own process (`Open`).
* `step_of_reach`: in these runs no task is ever stuck. No `BUG_ON` of a step fails, and no pointer to a
  freed or missing struct is followed; the loops over the transaction stacks end.
-/

namespace Redroid.Binder.Txn

open CallChain Relation

variable {L : Layout} {s s' s₁ : TxnState} {G : Ghost} {t u v : TxnId} {b : BufId} {x y z : ThreadId}
  {T : Transaction} {B : Buffer} {a a' : Actor} {act act' : Act} {rest m : List Act}
  {env : Env} {l : WorkList} {ws : List Work} {op : TxnOp} {n : NodeId} {p : ProcId}
  {ev : Event}

/-! ## The acts that a step adds -/

/-- What the acts `m` that come for `act` free. -/
structure Frees (s : TxnState) (act : Act) (m : List Act) : Prop where
  frees : ∀ act' ∈ m, ∀ b, act'.frees = some b → act.frees = some b ∨
    ∃ x t T, act = .deliver x t ∧ s.txn t = some T ∧ T.buffer = some b
  nodes : ∀ n, .nodeRelease n ∉ m

theorem Frees.nil : Frees s act [] := ⟨by simp, by simp⟩

theorem Frees.of_plain (h : ∀ act' ∈ m, act'.frees = none) (hn : ∀ n, .nodeRelease n ∉ m) :
    Frees s act m :=
  ⟨fun act' hact b hb => absurd ((h act' hact).symm.trans hb) (by simp), hn⟩

/-- The tasks after a step: the one that takes it goes on with `m`, and then with what it had to do, or
with nothing else. -/
theorem ActStep.goesOn (h : ActStep L s a rest env act s') : ∃ m rest', Frees s act m ∧
    (rest' = rest ∨ rest' = []) ∧ s'.frames = Function.update s.frames a (m ++ rest') := by
  have hplain {m : List Act} (hm : Frees s act m) (he : s'.frames = Function.update s.frames a (m ++ rest)) :
      ∃ m rest', Frees s act m ∧ (rest' = rest ∨ rest' = []) ∧
        s'.frames = Function.update s.frames a (m ++ rest') := ⟨m, rest, hm, .inl rfl, he⟩
  have herr (irt : Option TxnId) : Frees s act (TxnState.onError irt) := by
    cases irt <;> exact .of_plain (by simp [TxnState.onError, Act.frees]) (by simp [TxnState.onError])
  have hone {act' : Act} (hf : act'.frees = none) (hn : ∀ n, act' ≠ .nodeRelease n) : Frees s act [act'] :=
    .of_plain (by simpa using hf) fun n hm => hn n (List.mem_singleton.mp hm).symm
  cases h with
  | checkFail | replyBad | noWait | releaseDone => exact hplain .nil rfl
  | nodeRelease => exact hplain .nil rfl
  | checkOneWay | checkFirst | checkNested | replyDead | replyTo | sendAlloc | buildFail | buildOneWay |
      buildCall | cleanupCall | cleanupOther | readRetry | woken | waitProc | waitThread | copy |
      copyFail | deliveredOther | releaseOther => exact hplain (hone rfl (by simp)) rfl
  | sendFail => exact hplain (herr _) rfl
  | @buildReply x t r y s₁ hd hpop =>
    refine hplain (m := [.freeTransaction r]) (hone rfl (by simp)) ?_
    rw [TxnState.setFrames_frames, ← (SameBufs.pop hpop).2]
    rfl
  | accepted hT hb hB hn he =>
    refine hplain .nil ?_
    rw [TxnState.setFrames_frames, (binderProcTransaction_spec he).1.frames]
    rfl
  | @rejected x t th T b B n s₁ hT hb hB hn he =>
    refine hplain (m := (if T.oneWay then [] else [.popTransaction x t]) ++ [.unwind t none]) ?_ ?_
    · refine .of_plain ?_ ?_ <;> split <;> simp [Act.frees]
    · rw [TxnState.setFrames_frames, (binderProcTransaction_spec he).1.frames, List.append_assoc]
      rfl
  | pop hpop =>
    refine hplain .nil ?_
    rw [TxnState.setFrames_frames, (SameBufs.pop hpop).2]
    rfl
  | unwind hT hb => exact hplain (herr _) rfl
  | @failedReply t T y s₁ hT hy hpop =>
    refine hplain (m := [.freeTransaction t]) (hone rfl (by simp)) ?_
    rw [TxnState.setFrames_frames, ← (SameBufs.pop hpop).2]
    split <;> rfl
  | @failedParent t T hT hn =>
    refine hplain (m := .freeTransaction t :: TxnState.onError T.fromParent) ?_ rfl
    cases T.fromParent <;> exact .of_plain (by simp [TxnState.onError, Act.frees]) (by simp [TxnState.onError])
  | @freeLinked t T p b s₁ hT hp hb hs₁ =>
    obtain ⟨B, hB, hs₁⟩ := Option.bind_eq_some_iff.mp hs₁
    cases hs₁
    exact hplain .nil rfl
  | freeUnlinked => exact hplain .nil rfl
  | freeBuf hB hn => exact hplain (m := [_]) ⟨by simp [Act.frees], by simp⟩ rfl
  | freeBufLinked hB ht hT => exact hplain (m := [_]) ⟨by simp [Act.frees], by simp⟩ rfl
  | asyncLast | asyncNot => exact hplain (m := [_]) ⟨by simp [Act.frees], by simp⟩ rfl
  | @asyncNext b B n w ws hB ha hn hf hl =>
    have hst := (selectThread_spec (s := (s.setTodo (.node n) ws).enqueue (.proc B.proc) w) B.proc).1
    refine hplain (m := [.freeBufRelease b]) ⟨by simp [Act.frees], by simp⟩ ?_
    rw [TxnState.setFrames_frames, hst.frames]
    rfl
  | freeBufRelease => exact hplain .nil rfl
  | wake hg => rcases hg with rfl | rfl <;> exact hplain (.of_plain (by simp [Act.frees]) (by simp)) rfl
  | readNothing hg => rcases hg with rfl | rfl <;> exact hplain (.of_plain (by simp [Act.frees]) (by simp)) rfl
  | readOther hl htodo hg =>
    rcases hg with rfl | rfl <;> exact hplain (.of_plain (by simp [Act.frees]) (by simp)) rfl
  | readTransaction =>
    exact hplain (m := [_, _]) (.of_plain (by simp [Act.frees]) (by simp)) rfl
  | @deliver x t => exact ⟨[.copy x t], [], hone rfl (by simp), .inr rfl, rfl⟩
  | @deliverFail x t T b B hT hb hB =>
    have hm : Frees s (.deliver x t) [.cleanupTransaction t, .freeBuf b] := by
      refine ⟨fun act' hact c hc => .inr ⟨x, t, T, rfl, hT, ?_⟩, by simp⟩
      rcases List.mem_cons.mp hact with rfl | hact
      · cases hc
      · rw [List.mem_singleton.mp hact] at hc
        cases hc
        exact hb
    refine ⟨_, if B.targetNode.isNone then [] else rest, hm, ?_, rfl⟩
    split
    · exact .inr rfl
    · exact .inl rfl
  | deliveredCall => exact hplain .nil rfl
  | releaseTransaction => exact hplain (m := [_, _]) (.of_plain (by simp [Act.frees]) (by simp)) rfl

/-- Only the end of `binder_node_release` takes the process from a node. -/
theorem ActStep.proc (h : ActStep L s a rest env act s') (n : NodeId) :
    (s'.node n).proc = (s.node n).proc ∨ act = .nodeRelease n := by
  cases h with
  | accepted hT hb hB hn he => exact .inl ((binderProcTransaction_spec he).1.proc n)
  | rejected hT hb hB hn he => exact .inl ((binderProcTransaction_spec he).1.proc n)
  | buildReply hd hpop =>
    obtain ⟨T, -, -, -, rfl⟩ := pop_eq hpop
    exact .inl rfl
  | pop hpop =>
    obtain ⟨T, -, -, -, rfl⟩ := pop_eq hpop
    exact .inl rfl
  | failedReply hT hy hpop =>
    obtain ⟨T, -, -, -, rfl⟩ := pop_eq hpop
    left
    split <;> rfl
  | freeLinked hT hp hb hs₁ =>
    obtain ⟨B, hB, hs₁⟩ := Option.bind_eq_some_iff.mp hs₁
    cases hs₁
    exact .inl rfl
  | @asyncLast b B m hB ha hn hl =>
    left
    rcases eq_or_ne n m with rfl | hne
    · simp
    · simp [hne]
  | @asyncNext b B m w ws hB ha hn hf hl =>
    have hst := (selectThread_spec (s := (s.setTodo (.node m) ws).enqueue (.proc B.proc) w) B.proc).1
    exact .inl (hst.proc n)
  | @nodeRelease m =>
    rcases eq_or_ne n m with rfl | hne
    · exact .inr rfl
    · left
      simp [hne]
  | _ => exact .inl rfl

/-! ## The tasks of a step -/

/-- How the tasks go on in a step. -/
inductive TaskStep (L : Layout) (s : TxnState) (op : TxnOp) (s' : TxnState) : Prop
  /-- No task does anything. -/
  | stay : s'.frames = s.frames → s'.isDead = s.isDead →
      (∀ n, (s'.node n).proc = (s.node n).proc) → TaskStep L s op s'
  | die (p : ProcId) : op = .procDeath p → s'.frames = s.frames →
      s'.isDead = Function.update s.isDead p true → (∀ n, (s'.node n).proc = (s.node n).proc) →
      TaskStep L s op s'
  /-- The task `a` starts with the acts `m`. -/
  | begins (a : Actor) (m : List Act) : s.frames a = [] → s'.frames = Function.update s.frames a m →
      s'.isDead = s.isDead → (∀ n, (s'.node n).proc = (s.node n).proc) →
      (∀ x, a = .thread x → s.isDead (L.procOf x) = false) →
      (∀ act ∈ m, ∀ b, act.frees = some b → ∃ x B, a = .thread x ∧ s.buf b = some B ∧ B.proc = L.procOf x) →
      (∀ n, .nodeRelease n ∈ m → s.isDead (L.ownerOf n) = true) → TaskStep L s op s'
  /-- The task `a` takes its next act. -/
  | goesOn (a : Actor) (act : Act) (rest m rest' : List Act) : s.frames a = act :: rest →
      s'.frames = Function.update s.frames a (m ++ rest') → (rest' = rest ∨ rest' = []) →
      s'.isDead = s.isDead → (∀ n, (s'.node n).proc = (s.node n).proc ∨ act = .nodeRelease n) →
      Frees s act m → TaskStep L s op s'

/-- `binder_thread_release` by the thread itself or by the worker of its process. -/
theorem threadRelease_taskStep {fuel : Nat} (hi : Inv L s) (hsim : Sim L s G) (hb : Backed s)
    (hfr : s.frames a = [])
    (hlive : ∀ x, a = .thread x → s.isDead (L.procOf x) = false)
    (he : s.threadRelease a x fuel = some s') : TaskStep L s op s' := by
  obtain ⟨hd, s₁, hs₁, m, hm, rfl⟩ := threadRelease_eq he
  obtain ⟨-, hfr₁, -, -, hnode, hdead, -, -⟩ := (Leaving.start hb hi hsim hd).inv.releaseStack
    (fun t ht => (Leaving.start hb hi hsim hd).stackable t (by rwa [← hsim.data.top hd])) hs₁
  refine .begins a m hfr (by rw [TxnState.setFrames_frames, hfr₁]; rfl) hdead
    (fun n => congrArg Node.proc (congrFun hnode n)) hlive (fun act hact b hb => ?_) fun n hn => ?_
  · rcases hm act hact with rfl | ⟨t, T, rfl, -⟩ <;> cases hb
  · rcases hm _ hn with hn | ⟨t, T, hn, -⟩ <;> cases hn

theorem exec_taskStep (hi : Inv L s) (hsim : Sim L s G) (hb : Backed s) (he : s.exec L op = some s') :
    TaskStep L s op s' := by
  cases op with
  | transaction x n oneWay =>
    simp only [TxnState.exec, bind, Option.bind_eq_some_iff, Option.guard_eq_some', exists_const] at he
    obtain ⟨hidle, tp, -, he⟩ := he
    cases he
    exact .begins (.thread x) _ (frames_of_idle hidle) rfl rfl (fun _ => rfl)
      (fun y hy => by cases hy; exact (live_of_idle hidle).2) (by simp [Act.frees]) (by simp)
  | reply x oneWay =>
    simp only [TxnState.exec, bind, Option.bind_eq_some_iff, Option.guard_eq_some', exists_const] at he
    obtain ⟨hidle, irt, -, T, -, -, he⟩ := he
    cases he
    exact .begins (.thread x) _ (frames_of_idle hidle) rfl rfl (fun _ => rfl)
      (fun y hy => by cases hy; exact (live_of_idle hidle).2) (by simp [Act.frees]) (by simp)
  | read x =>
    simp only [TxnState.exec, bind, Option.bind_eq_some_iff, Option.guard_eq_some', exists_const] at he
    obtain ⟨hidle, he⟩ := he
    cases he
    exact .begins (.thread x) _ (frames_of_idle hidle) rfl rfl (fun _ => rfl)
      (fun y hy => by cases hy; exact (live_of_idle hidle).2) (by simp [Act.frees]) (by simp)
  | freeBuffer x b =>
    simp only [TxnState.exec, bind, Option.bind_eq_some_iff, Option.guard_eq_some', exists_const] at he
    obtain ⟨hidle, B, hB, hp, -, he⟩ := he
    cases he
    refine .begins (.thread x) _ (frames_of_idle hidle) rfl rfl (fun _ => rfl)
      (fun y hy => by cases hy; exact (live_of_idle hidle).2) (fun act hact c hc => ?_) (by simp)
    rw [List.mem_singleton.mp hact] at hc
    cases hc
    exact ⟨x, B, rfl, hB, hp⟩
  | threadExit x fuel =>
    simp only [TxnState.exec, bind, Option.bind_eq_some_iff, Option.guard_eq_some', exists_const] at he
    exact threadRelease_taskStep hi hsim hb (frames_of_idle he.1)
      (fun y hy => by cases hy; exact (live_of_idle he.1).2) he.2
  | procDeath p =>
    cases he
    exact .die p rfl rfl rfl fun _ => rfl
  | releaseThread p x fuel =>
    simp only [TxnState.exec, bind, Option.bind_eq_some_iff, Option.guard_eq_some', exists_const,
      TxnState.workerIdle, Bool.and_eq_true, List.isEmpty_iff] at he
    exact threadRelease_taskStep hi hsim hb he.1.1 (fun y hy => by cases hy) he.2.2.2
  | releaseNode p n =>
    simp only [TxnState.exec, bind, Option.bind_eq_some_iff, Option.guard_eq_some', exists_const,
      TxnState.workerIdle, Bool.and_eq_true, List.isEmpty_iff] at he
    obtain ⟨⟨hfr, hdead⟩, hp, he⟩ := he
    cases he
    refine .begins (.worker p) _ hfr rfl rfl (fun _ => rfl) (fun y hy => by cases hy) (by simp [Act.frees])
      fun m hm => ?_
    obtain rfl : m = n := by simpa using hm
    rw [hi.owners hp]
    exact hdead
  | releaseTodo p =>
    simp only [TxnState.exec, bind, Option.bind_eq_some_iff, Option.guard_eq_some', exists_const,
      TxnState.workerIdle, Bool.and_eq_true, List.isEmpty_iff] at he
    obtain ⟨⟨hfr, -⟩, he⟩ := he
    cases he
    exact .begins (.worker p) _ hfr rfl rfl (fun _ => rfl) (fun y hy => by cases hy) (by simp [Act.frees])
      (by simp)
  | addProcWork p type =>
    cases he
    exact .stay rfl rfl fun _ => rfl
  | addThreadWork x type deferred =>
    simp only [TxnState.exec, bind, Option.bind_eq_some_iff, Option.guard_eq_some', exists_const] at he
    obtain ⟨-, he⟩ := he
    cases he
    cases deferred <;> exact .stay rfl rfl fun _ => rfl
  | dropWork l type =>
    cases he
    exact .stay rfl rfl fun _ => rfl
  | run a env =>
    simp only [TxnState.exec] at he
    split at he
    · cases he
    · rename_i act rest hfr
      have hstep := execAct_cases he
      obtain ⟨m, rest', hm, hr, hfr'⟩ := hstep.goesOn
      exact .goesOn a act rest m rest' hfr hfr' hr hstep.sameDead.isDead hstep.proc hm

/-! ## Deaths while no thread is in an ioctl -/

/-- The file of a process is released when none of its threads is in an ioctl. -/
def Closes (L : Layout) (s : TxnState) (op : TxnOp) : Prop :=
  ∀ p x, op = .procDeath p → L.procOf x = p → s.frames (.thread x) = []

structure Open (L : Layout) (s : TxnState) : Prop where
  closed : ∀ {x}, s.isDead (L.procOf x) = true → s.frames (.thread x) = []
  release : ∀ {a n}, .nodeRelease n ∈ s.frames a → s.isDead (L.ownerOf n) = true
  node : ∀ {n}, (s.node n).proc = none → s.isDead (L.ownerOf n) = true
  mine : ∀ {a b}, b ∈ s.freeing a → ∃ x B, a = .thread x ∧ s.buf b = some B ∧ B.proc = L.procOf x

/-- A buffer that is freed was there before, in the same process. -/
theorem buf_of_freeing (hi' : Inv L s') (hbs : BufStep L s op s' ev) (hb : OnList s'.freeing b)
    (hB : s'.buf b = some B) : ∃ B₀, s.buf b = some B₀ ∧ B₀.proc = B.proc := by
  rcases hbs.kind hB with ⟨B₀, hB₀, hk⟩ | ⟨t, ⟨C, hC, ht⟩, hact⟩
  · rw [Buffer.kind, Buffer.kind, Prod.mk.injEq] at hk
    exact ⟨B₀, hB₀, hk.1⟩
  · obtain ⟨T, hT, hb'⟩ := hi'.links.link hC ht
    exact absurd hb (hi'.not_freed (Acting.onList (.inl hact)) hT hb')

theorem Open.exec (h : Open L s) (hi : Inv L s) (hs : Sched L s) (hsim : Sim L s G) (hb : Backed s)
    (hc : Closes L s op) (he : s.exec L op = some s') : Open L s' := by
  have hi' := hi.exec hs he
  have hb' := hb.exec hi hsim he
  have hbs := exec_bufStep hi hs he
  -- the process of a buffer does not change
  have hproc {b : BufId} {x : ThreadId} (hon : OnList s'.freeing b)
      (hp : ∃ B, s.buf b = some B ∧ B.proc = L.procOf x) : ∃ B, s'.buf b = some B ∧ B.proc = L.procOf x := by
    obtain ⟨B', hB'⟩ := hb'.freeing hon
    obtain ⟨B₀, hB₀, hpp⟩ := buf_of_freeing hi' hbs hon hB'
    obtain ⟨B, hB, hp⟩ := hp
    rw [hB] at hB₀
    cases hB₀
    exact ⟨B', hB', hpp.symm.trans hp⟩
  have hmine {a : Actor} {b : BufId} (hon : b ∈ s'.freeing a) (hold : b ∈ s.freeing a) :
      ∃ x B, a = .thread x ∧ s'.buf b = some B ∧ B.proc = L.procOf x := by
    obtain ⟨x, B, rfl, hB, hp⟩ := h.mine hold
    exact ⟨x, (hproc ⟨_, hon⟩ ⟨B, hB, hp⟩).imp fun _ h => ⟨rfl, h⟩⟩
  cases exec_taskStep hi hsim hb he with
  | stay hfr hd hn =>
    refine ⟨fun hx => ?_, fun {a n} hm => ?_, fun {n} hnone => ?_, fun {a b} hon => hmine hon ?_⟩
    · rw [hfr]
      exact h.closed (by rwa [hd] at hx)
    · rw [hd]
      exact h.release (by rwa [hfr] at hm)
    · rw [hd]
      exact h.node ((hn n).symm.trans hnone)
    · rwa [TxnState.freeing, hfr] at hon
  | die p hop hfr hd hn =>
    refine ⟨fun {x} hx => ?_, fun {a n} hm => ?_, fun {n} hnone => ?_, fun {a b} hon => hmine hon ?_⟩
    · rw [hfr]
      rw [hd] at hx
      rcases eq_or_ne (L.procOf x) p with hp | hne
      · exact hc p x hop hp
      · exact h.closed (by rwa [Function.update_of_ne hne] at hx)
    · rw [hd, Function.update_apply]
      split
      · rfl
      · exact h.release (by rwa [hfr] at hm)
    · rw [hd, Function.update_apply]
      split
      · rfl
      · exact h.node ((hn n).symm.trans hnone)
    · rwa [TxnState.freeing, hfr] at hon
  | begins a m hfra hfr hd hn hlive hfrees hnodes =>
    refine ⟨fun {x} hx => ?_, fun {a' n} hm => ?_, fun {n} hnone => ?_, fun {a' b} hon => ?_⟩
    · rw [hd] at hx
      have hne : Actor.thread x ≠ a := by
        rintro rfl
        rw [hlive x rfl] at hx
        cases hx
      rw [hfr, Function.update_of_ne hne]
      exact h.closed hx
    · rw [hd]
      rw [hfr] at hm
      rcases eq_or_ne a' a with rfl | hne
      · exact hnodes n (by rwa [Function.update_self] at hm)
      · exact h.release (by rwa [Function.update_of_ne hne] at hm)
    · rw [hd]
      exact h.node ((hn n).symm.trans hnone)
    · obtain ⟨act, hact, hf⟩ := List.mem_filterMap.mp hon
      rw [hfr] at hact
      rcases eq_or_ne a' a with rfl | hne
      · rw [Function.update_self] at hact
        obtain ⟨x, B, rfl, hB, hp⟩ := hfrees act hact b hf
        exact ⟨x, (hproc ⟨_, hon⟩ ⟨B, hB, hp⟩).imp fun _ h => ⟨rfl, h⟩⟩
      · rw [Function.update_of_ne hne] at hact
        exact hmine hon (List.mem_filterMap.mpr ⟨act, hact, hf⟩)
  | goesOn a act rest m rest' hfra hfr hr hd hn hm =>
    have hact₀ : act ∈ s.frames a := hfra ▸ List.mem_cons_self
    have hin {act' : Act} (hact' : act' ∈ rest') : act' ∈ s.frames a := by
      rcases hr with rfl | rfl
      · exact hfra ▸ List.mem_cons_of_mem _ hact'
      · cases hact'
    have hmem {a' : Actor} {act' : Act} (hact' : act' ∈ s'.frames a') :
        (a' = a ∧ act' ∈ m) ∨ act' ∈ s.frames a' := by
      rw [hfr] at hact'
      rcases eq_or_ne a' a with rfl | hne
      · rw [Function.update_self, List.mem_append] at hact'
        exact hact'.imp (⟨rfl, ·⟩) hin
      · rw [Function.update_of_ne hne] at hact'
        exact .inr hact'
    refine ⟨fun {x} hx => ?_, fun {a' n} hm' => ?_, fun {n} hnone => ?_, fun {a' b} hon => ?_⟩
    · rw [hd] at hx
      have hnil := h.closed hx
      have hne : Actor.thread x ≠ a := by
        rintro rfl
        rw [hfra] at hnil
        cases hnil
      rw [hfr, Function.update_of_ne hne, hnil]
    · rw [hd]
      rcases hmem hm' with ⟨-, hm'⟩ | hm'
      · exact absurd hm' (hm.nodes n)
      · exact h.release hm'
    · rw [hd]
      rcases hn n with hn | rfl
      · exact h.node (hn.symm.trans hnone)
      · exact h.release hact₀
    · obtain ⟨act', hact', hf⟩ := List.mem_filterMap.mp hon
      rcases hmem hact' with ⟨rfl, hact'⟩ | hact'
      · rcases hm.frees act' hact' b hf with hf | ⟨x, t, T, rfl, hT, hbT⟩
        · exact hmine hon (List.mem_filterMap.mpr ⟨act, hact₀, hf⟩)
        · obtain rfl := hi.self hact₀ rfl
          obtain ⟨B, hB⟩ := hb.attached hT hbT
          have h₁ := hsim.tasks.brought hact₀ rfl hT
          rw [(hsim.data.kind hT hbT hB).1, Option.some.injEq] at h₁
          exact ⟨x, (hproc ⟨_, hon⟩ ⟨B, hB, h₁⟩).imp fun _ h => ⟨rfl, h⟩⟩
      · exact hmine hon (List.mem_filterMap.mpr ⟨act', hact', hf⟩)

theorem open_of_reach (h : (txnSys L).ReachIf (Closes L) s) : Open L s := by
  refine (h.inv (I := fun s => (txnSys L).Reach s ∧ Open L s) ?_ ?_).2
  · rintro _ rfl
    refine ⟨.init rfl, ⟨fun _ => rfl, fun {a n} hm => ?_, fun {n} hn => ?_, fun {a b} hb => ?_⟩⟩
    · cases hm
    · cases hn
    · cases hb
  · rintro s op s' ⟨hr, ho⟩ hc he
    obtain ⟨hi, hs, G, hsim⟩ := sim_of_reach hr
    exact ⟨hr.next he, ho.exec hi hs hsim (backed_of_reach hr) hc he⟩

/-! ## The loops over the stacks end -/

/-- Chains of callers end: there are finitely many transactions. -/
theorem Sim.callers (h : Sim L s G) (hi : Inv L s) : WellFounded G.net.Calls := by
  refine Net.Ends.callers (g := G.net) h.ends ((Set.finite_Iio s.nextTxn).subset fun p hp => ?_)
  obtain ⟨c, hc⟩ := hp
  obtain ⟨T, hT⟩ := h.data.txn (t := p) fun ha => (h.ok.absent_calls (p := p) (c := c) ha).2 hc
  exact hi.links.txn_lt hT

/-- The walk of `binder_transaction` along the stack of the caller. -/
theorem Sim.findThread_isSome (h : Sim L s G) (hi : Inv L s) (hst : G.net.status v ≠ .held)
    (hst' : G.net.status v ≠ .absent) :
    ∃ n, ∀ fuel, n ≤ fuel → (s.findThread L p fuel (some v)).isSome := by
  induction v using (h.callers hi).induction with
  | h v ih =>
    obtain ⟨T, hT⟩ := h.data.txn hst'
    have hpar := (h.data.fresh hT (h.data.stacked hst' hst).2).2
    obtain ⟨n, hn⟩ : ∃ n, ∀ fuel, n ≤ fuel → (s.findThread L p fuel T.fromParent).isSome := by
      cases hq : T.fromParent with
      | none =>
        refine ⟨0, fun fuel _ => ?_⟩
        cases fuel <;> rfl
      | some q =>
        have hc : G.net.Calls q v := hpar.trans hq
        refine ih q hc ?_ ?_ <;>
          rcases h.ok.parent hc with ⟨z, -, hs⟩ | ⟨-, hs⟩ <;> rw [hs] <;> simp
    refine ⟨n + 1, fun fuel hf => ?_⟩
    obtain ⟨fuel, rfl⟩ : ∃ k, fuel = k + 1 := ⟨fuel - 1, by omega⟩
    simp only [TxnState.findThread, hT, Option.bind_eq_bind, Option.bind_some]
    cases hy : T.fromThread with
    | none => exact hn fuel (by omega)
    | some y =>
      simp only
      split
      · rfl
      · exact hn fuel (by omega)

/-- The loop of `binder_thread_release`. -/
theorem Leaving.releaseStack {l₁ l₂ : List (Entry TxnId)} (h : Leaving L x s s₁ l₁ l₂) (hsim : Sim L s G)
    (hfr : s.frames a = []) (hl : G.net.stack x = l₁ ++ l₂) :
    ∀ fuel, l₂.length ≤ fuel → (TxnState.releaseStack x fuel s₁ (l₂.head?.map Entry.id)).isSome := by
  induction l₂ generalizing l₁ s₁ with
  | nil =>
    intro fuel _
    cases fuel <;> rfl
  | cons e l₂ ih =>
    intro fuel hf
    obtain ⟨fuel, rfl⟩ : ∃ k, fuel = k + 1 := ⟨fuel - 1, by rw [List.length_cons] at hf; omega⟩
    obtain ⟨T, -, hT, he⟩ := hsim.entry hl h.unwound
    have hnext {s₂ : TxnState} {o : Option TxnId} (ht : StackTurn x s₁ e.id s₂ o) :
        (TxnState.releaseStack x fuel s₂ o).isSome := by
      obtain ⟨rfl, h'⟩ := h.turn hsim hfr hl ht
      exact ih h' (by rw [hl, List.append_assoc]; rfl) fuel (by rw [List.length_cons] at hf; omega)
    simp only [List.head?_cons, Option.map_some, TxnState.releaseStack, hT, Option.bind_eq_bind,
      Option.bind_some]
    rcases he with ⟨-, hto, -⟩ | ⟨-, hto, hfrom, -⟩
    · rw [if_pos hto]
      cases hb : T.buffer with
      | none => exact hnext (.unlinked T hT hto hb)
      | some b =>
        obtain ⟨B, hB⟩ := h.backed.attached hT hb
        simp only [TxnState.unlink, hB, Option.bind_eq_bind, Option.bind_some]
        exact hnext (.served T b B hT hto hb hB)
    · rw [if_neg hto, if_pos hfrom]
      exact hnext (.sent T hT hto hfrom)

/-! ## No step is stuck -/

theorem ordered_of_reach (h : (txnSys L).Reach s) : Ordered s := by
  refine (h.inv (I := fun s => (txnSys L).Reach s ∧ Ordered s) ?_ ?_).2
  · rintro _ rfl
    exact ⟨.init rfl, ordered_start L⟩
  · rintro s op s' ⟨hr, ho⟩ he
    obtain ⟨hi, hs⟩ := inv_of_reach hr
    exact ⟨hr.next he, (exec_bufStep hi hs he).ordered hi (hi.exec hs he) ho⟩

/-- The guards of `binder_free_buf` for an asynchronous transaction. -/
theorem Open.async (h : Open L s) (hi : Inv L s) (ho : Ordered s) (hn : NodeOwners L s)
    (hfr : s.frames a = .freeBufAsync b :: rest) (hB : s.buf b = some B) (ha : B.asyncTransaction = true)
    (hbn : B.targetNode = some n) :
    (s.node n).hasAsyncTransaction = true ∧ (s.node n).proc = some B.proc := by
  have hact : .freeBufAsync b ∈ s.frames a := hfr ▸ List.mem_cons_self
  refine ⟨ho.flag (b := b) ⟨⟨B, hB, ha, hbn⟩, .freeing, ⟨by rw [hB]; rfl, a, _, hact, rfl⟩, rfl⟩, ?_⟩
  obtain ⟨x, C, rfl, hC, hp⟩ := h.mine (List.mem_filterMap.mpr ⟨_, hact, rfl⟩)
  rw [hB] at hC
  cases hC
  have hown := hn hB hbn
  cases hq : (s.node n).proc with
  | none =>
    have hnil := h.closed (x := x) (by rw [← hp, ← hown]; exact h.node hq)
    rw [hfr] at hnil
    cases hnil
  | some q => rw [← hown, hi.owners hq]

/-- What is on a stack is allocated. -/
theorem Sim.stack_txn (h : Sim L s G) (hd : (s.thread x).isDead = false)
    (hst : (s.thread x).transactionStack = some t) : ∃ T, s.txn t = some T := by
  rw [h.data.top hd] at hst
  cases hl : G.net.stack x with
  | nil =>
    rw [hl] at hst
    cases hst
  | cons e r =>
    rw [hl] at hst
    cases hst
    refine h.data.txn fun ha => ?_
    cases e with
    | serve t =>
      have hserved := h.ok.serve_iff.mp (show .serve t ∈ G.net.stack x by rw [hl]; simp)
      rw [show G.net.status t = .absent from ha] at hserved
      cases hserved
    | call t =>
      have hcaller := h.ok.call_iff.mp (show .call t ∈ G.net.stack x by rw [hl]; simp)
      rw [(h.ok.absent (t := t) ha).1] at hcaller
      cases hcaller

/-- `binder_transaction`: the checks under the inner lock. -/
theorem Sim.check_isSome {oneWay : Bool} (h : Sim L s G) (hi : Inv L s) (hd : (s.thread x).isDead = false) :
    ∃ k, ∀ env : Env, k ≤ env.fuel → (s.execAct L a rest env (.check x p n oneWay)).isSome := by
  obtain ⟨k, hk⟩ : ∃ k, ∀ fuel tmp T, k ≤ fuel → (s.thread x).transactionStack = some tmp →
      s.txn tmp = some T → T.toThread = some x → (s.findThread L p fuel (some tmp)).isSome := by
    by_cases hs : ∃ tmp T, (s.thread x).transactionStack = some tmp ∧ s.txn tmp = some T ∧ T.toThread = some x
    · obtain ⟨tmp, T, hst, hT, hto⟩ := hs
      obtain ⟨r, hr⟩ := h.top_serve hd hst hT hto
      have hserved := h.ok.serve_iff.mp (show .serve tmp ∈ G.net.stack x by rw [hr]; simp)
      obtain ⟨k, hk⟩ := h.findThread_isSome (p := p) hi (v := tmp) (by simp [hserved]) (by simp [hserved])
      refine ⟨k, fun fuel tmp' T' hf hst' _ _ => ?_⟩
      rw [hst] at hst'
      cases hst'
      exact hk fuel hf
    · exact ⟨0, fun fuel tmp T _ hst hT hto => absurd ⟨tmp, T, hst, hT, hto⟩ hs⟩
  refine ⟨k, fun env hf => ?_⟩
  simp only [TxnState.execAct]
  split
  · rfl
  split
  · rfl
  split
  · rfl
  split
  · rfl
  · rename_i tmp hst
    obtain ⟨T, hT⟩ := h.stack_txn hd hst
    simp only [hT, Option.bind_eq_bind, Option.bind_some]
    split
    · rfl
    · rename_i hto
      obtain ⟨th, hth⟩ := Option.isSome_iff_exists.mp (hk env.fuel tmp T hf hst hT (not_not.mp hto))
      rw [hth]
      rfl

/-- `binder_transaction`: the transaction goes onto the stack, or the reply to its thread. -/
theorem Sim.build_isSome {irt : Option TxnId} {th : Option ThreadId} (h : Sim L s G) (hi : Inv L s)
    (hs : Sched L s) (hfr : s.frames a = .build x t irt th :: rest) :
    (s.execAct L a rest env (.build x t irt th)).isSome := by
  have hact : .build x t irt th ∈ s.frames a := hfr ▸ List.mem_cons_self
  obtain ⟨T, hT⟩ := h.owned_some hact (mem_owns_of_holds rfl)
  simp only [TxnState.execAct, hT, Option.bind_eq_bind, Option.bind_some]
  split
  · rfl
  cases irt with
  | none =>
    simp only
    split <;> rfl
  | some r =>
    obtain ⟨-, -, y, rfl, -⟩ := (h.tasks.acts hact).1 r rfl
    simp only
    split
    · rfl
    · rename_i hd
      obtain ⟨s₁, -, he, -⟩ := h.exec_buildReply hi hs hfr (by simpa using hd)
      rw [he]
      rfl

/-- `binder_proc_transaction`. -/
theorem Backed.procTransaction_isSome {th : Option ThreadId} (h : Backed s) (hi : Inv L s)
    (hfr : s.frames a = .procTransaction x t th :: rest) :
    (s.execAct L a rest env (.procTransaction x t th)).isSome := by
  have hact : .procTransaction x t th ∈ s.frames a := hfr ▸ List.mem_cons_self
  obtain ⟨T, b, B, hT, hb, hB, -⟩ := hi.acts hact
  obtain ⟨hn, ho⟩ := h.sends hact hT hb hB
  obtain ⟨n, hn⟩ := Option.isSome_iff_exists.mp hn
  have hguard : (!(T.oneWay && th.isSome)) = true := by
    cases hw : T.oneWay with
    | false => rfl
    | true => simp [ho hw]
  have hsome : (s.binderProcTransaction t T.oneWay n B.proc th).isSome := by
    simp only [TxnState.binderProcTransaction, hguard, guard, if_true, Option.pure_def, Option.bind_eq_bind,
      Option.bind_some]
    generalize (if T.oneWay = true then s.setNode n _ else s) = s₁
    split
    · rfl
    · generalize (if (th.isNone && !(T.oneWay && (s.node n).hasAsyncTransaction)) = true then _ else _) = q
      split <;> rfl
  obtain ⟨⟨ok, s₁⟩, hr⟩ := Option.isSome_iff_exists.mp hsome
  simp only [TxnState.execAct, hT, hb, hB, hn, hr, Option.bind_eq_bind, Option.bind_some]
  cases ok with
  | true => rfl
  | false =>
    simp only
    split <;> rfl

/-- In every run in which no process dies while one of its threads is in an ioctl, every task can take
its next step, whatever else happens: no `BUG_ON` that the steps check fails on the way, no pointer to
a struct that is freed or missing is followed, and the loops over the transaction stacks end. So can a
thread that is released. -/
theorem step_of_reach (h : (txnSys L).ReachIf (Closes L) s) :
    (∀ a act rest, s.frames a = act :: rest →
      ∃ n, ∀ env : Env, n ≤ env.fuel → (s.execAct L a rest env act).isSome) ∧
    ∀ a x, s.frames a = [] → (s.thread x).isDead = false →
      ∃ n, ∀ fuel, n ≤ fuel → (s.threadRelease a x fuel).isSome := by
  obtain ⟨hi, hs, G, hsim⟩ := sim_of_reach h.reach
  have hb := backed_of_reach h.reach
  refine ⟨fun a act rest hfr => ?_, fun a x hfr hd => ?_⟩
  · have hact : act ∈ s.frames a := hfr ▸ List.mem_cons_self
    have hnow (hsome : ∀ env, (s.execAct L a rest env act).isSome) :
        ∃ n, ∀ env : Env, n ≤ env.fuel → (s.execAct L a rest env act).isSome := ⟨0, fun env _ => hsome env⟩
    have howned {t : TxnId} (ht : t ∈ act.owns) : ∃ T, s.txn t = some T := hsim.owned_some hact ht
    have hlive {t : TxnId} (ht : act.holds = some t) :
        ∃ T b B, s.txn t = some T ∧ T.buffer = some b ∧ s.buf b = some B := by
      have hm : t ∈ s.contents (.actor a) := List.mem_filterMap.mpr ⟨act, hact, ht⟩
      obtain ⟨T, b, B, hl, -⟩ := hi.live hm
      exact ⟨T, b, B, hl.txn, hl.buffer, hl.buf⟩
    cases act with
    | check x tp n oneWay => exact hsim.check_isSome hi (hs.alive hi hact rfl)
    | replyTarget x irt oneWay =>
      obtain ⟨T, hT⟩ := howned (t := irt) (mem_owns_of_refs (by simp [Act.refs]))
      refine hnow fun env => ?_
      simp only [TxnState.execAct, hT, Option.bind_eq_bind, Option.bind_some]
      split
      · rfl
      · split <;> rfl
    | send x tp n irt th oneWay =>
      refine hnow fun env => ?_
      simp only [TxnState.execAct]
      split <;> rfl
    | build x t irt th => exact hnow fun env => hsim.build_isSome hi hs hfr
    | procTransaction x t th => exact hnow fun env => hb.procTransaction_isSome hi hfr
    | popTransaction x t =>
      refine hnow fun env => ?_
      obtain ⟨s₁, -, he, -⟩ := hsim.exec_pop hi hs hfr
      simp [TxnState.execAct, he]
    | unwind t irt =>
      obtain ⟨T, b, B, hT, hbT, -⟩ := hlive rfl
      exact hnow fun env => by simp [TxnState.execAct, hT, hbT]
    | sendFailedReply t =>
      obtain ⟨T, hT⟩ := howned (t := t) (mem_owns_of_refs (by simp [Act.refs]))
      refine hnow fun env => ?_
      simp only [TxnState.execAct, hT, Option.bind_eq_bind, Option.bind_some]
      split
      · rename_i y hy
        obtain ⟨s₁, -, he, -⟩ := hsim.exec_failedReply env hi hs hfr hT hy
        rw [he]
        rfl
      · rfl
    | freeTransaction t =>
      obtain ⟨T, hT⟩ := howned (t := t) (mem_owns_of_refs (by simp [Act.refs]))
      refine hnow fun env => ?_
      simp only [TxnState.execAct, hT, Option.bind_eq_bind, Option.bind_some]
      split
      · rename_i p b hp hbT
        obtain ⟨B, hB⟩ := hb.attached hT hbT
        simp [TxnState.unlink, hB]
      · rfl
    | cleanupTransaction t =>
      obtain ⟨T, b, B, hT, hbT, hB, -⟩ := hb.cleanup hact
      refine hnow fun env => ?_
      simp only [TxnState.execAct, hT, hbT, hB, Option.bind_eq_bind, Option.bind_some]
      split <;> rfl
    | freeBuf b =>
      obtain ⟨B, hB⟩ := hb.freeing ⟨a, List.mem_filterMap.mpr ⟨_, hact, rfl⟩⟩
      refine hnow fun env => ?_
      simp only [TxnState.execAct, hB, Option.bind_eq_bind, Option.bind_some]
      cases ht : B.transaction with
      | none => rfl
      | some t =>
        obtain ⟨T, hT, -⟩ := hi.links.link hB ht
        simp [TxnState.unlink, hT, hB]
    | freeBufAsync b =>
      obtain ⟨B, hB⟩ := hb.freeing ⟨a, List.mem_filterMap.mpr ⟨_, hact, rfl⟩⟩
      refine hnow fun env => ?_
      simp only [TxnState.execAct, hB, Option.bind_eq_bind, Option.bind_some]
      split
      · rename_i n ha hbn
        obtain ⟨hflag, hp⟩ := (open_of_reach h).async hi (ordered_of_reach h.reach)
          (flagged_of_reach h.reach).2 hfr hB ha hbn
        simp only [hflag, hp, guard, if_true, Option.pure_def, Option.bind_some]
        split <;> rfl
      · rfl
    | freeBufRelease b =>
      obtain ⟨B, hB⟩ := hb.freeing ⟨a, List.mem_filterMap.mpr ⟨_, hact, rfl⟩⟩
      refine hnow fun env => ?_
      simp [TxnState.execAct, hB, (hb.loose (.inr hact)).1 B hB, guard]
    | readRetry x => exact hnow fun env => rfl
    | wait x procWork =>
      refine hnow fun env => ?_
      simp only [TxnState.execAct]
      split
      · rfl
      · split <;> rfl
    | sleep x procWork => exact hnow fun env => rfl
    | read x procWork =>
      refine hnow fun env => ?_
      simp only [TxnState.execAct]
      generalize (if (s.todo (.thread x)).isEmpty then WorkList.proc (L.procOf x) else .thread x) = l
      cases s.todo l with
      | nil => rfl
      | cons w ws =>
        simp only
        split
        · rfl
        · split
          · rfl
          · cases w <;> rfl
    | deliver x t =>
      obtain ⟨T, b, B, hT, hbT, hB⟩ := hlive rfl
      refine hnow fun env => ?_
      simp only [TxnState.execAct, TxnState.unlink, hT, hbT, hB, Option.bind_eq_bind, Option.bind_some]
      split <;> rfl
    | copy x t =>
      obtain ⟨T, b, B, hT, hbT, hB⟩ := hlive rfl
      refine hnow fun env => ?_
      simp only [TxnState.execAct, hT, hbT, hB, Option.bind_eq_bind, Option.bind_some]
      split <;> rfl
    | delivered x t isReply =>
      obtain ⟨T, hT⟩ := howned (t := t) (mem_owns_of_refs (by simp [Act.refs]))
      refine hnow fun env => ?_
      simp only [TxnState.execAct, hT, Option.bind_eq_bind, Option.bind_some]
      split <;> rfl
    | releaseWork l =>
      refine hnow fun env => ?_
      simp only [TxnState.execAct]
      split <;> rfl
    | nodeRelease n => exact hnow fun env => rfl
  · obtain ⟨l, hl⟩ : ∃ l, G.net.stack x = l := ⟨_, rfl⟩
    have hlv := Leaving.start hb hi hsim hd
    refine ⟨l.length, fun fuel hf => ?_⟩
    have hrel := hlv.releaseStack hsim hfr (by simp) fuel (by rwa [hl])
    rw [← hsim.data.top hd] at hrel
    obtain ⟨s₁, hs₁⟩ := Option.isSome_iff_exists.mp hrel
    simp [TxnState.threadRelease, hd, guard, hs₁]

/-- No process dies. -/
def TxnOp.noDeath : TxnOp → Bool
  | .procDeath _ => false
  | _ => true

theorem closes_of_noDeath (h : op.noDeath = true) : Closes L s op := by
  rintro p x rfl
  cases h

/-- Two transactions are sent, the first one is read, and its buffer is being freed. -/
def freeingFirst : TxnState :=
  (Sys.execIf (TxnState.exec twoProcs) (fun _ op => op.noDeath = true) (start twoProcs)
    (sendOneWay ++ sendOneWay ++ readUpToCopy ++ goOn 1 3 ++ .freeBuffer 1 0 :: goOn 1 1)).get (by decide)

/-- Its task can go on, and the other thread can leave. -/
theorem step_freeingFirst : freeingFirst.frames (.thread 1) = [.freeBufAsync 0] ∧
    freeingFirst.todo (.node 0) = [.transaction 1] ∧
    (∃ n, ∀ env : Env, n ≤ env.fuel →
      (freeingFirst.execAct twoProcs (.thread 1) [] env (.freeBufAsync 0)).isSome) ∧
    ∃ n, ∀ fuel, n ≤ fuel → (freeingFirst.threadRelease (.thread 0) 0 fuel).isSome := by
  have h : (txnSys twoProcs).ReachIf (fun _ op => op.noDeath = true) freeingFirst :=
    Sys.ReachIf.execIf (.init rfl) (Option.some_get _).symm
  have hstep := step_of_reach (h.mono fun _ _ h => closes_of_noDeath h)
  exact ⟨rfl, rfl, hstep.1 (.thread 1) (.freeBufAsync 0) [] rfl, hstep.2 (.thread 0) 0 rfl rfl⟩

end Redroid.Binder.Txn
