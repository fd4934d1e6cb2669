import Redroid.Binder.TxnProgress

/-!
# The life of a buffer

* `Phase.rank`: the order of the phases. `later_of_reach`: a buffer goes forward only, and one that is in
  no phase any more (freed, or lost with its transaction) stays so.
* `allowed_of_run`: user space may free a buffer only after a thread of its process has copied it to user
  space.
* `freed_once`: `BC_FREE_BUFFER` succeeds for each allocated buffer once at most, and only after it has
  been delivered.
-/

namespace Redroid.Binder.Txn

open CallChain Relation

variable {L : Layout} {s s' s₁ : TxnState} {G : Ghost} {t u : TxnId} {b : BufId} {x y z : ThreadId}
  {T : Transaction} {B B' : Buffer} {a a' : Actor} {act act' : Act} {rest m : List Act}
  {env : Env} {l : WorkList} {ws : List Work} {op : TxnOp} {n : NodeId} {p q : Phase} {ev : Event}

/-! ## Where buffers come from -/

/-- Where the buffer `b` is from after a step: it was there, with the same `allow_user_free`; or
`binder_transaction` has allocated it; or its transaction has been delivered. -/
inductive BufFrom (s : TxnState) (act : Act) (b : BufId) (B' : Buffer) : Prop
  | old (B : Buffer) : s.buf b = some B → B'.allowUserFree = B.allowUserFree → BufFrom s act b B'
  | alloc : b = s.nextBuf → B'.allowUserFree = false → BufFrom s act b B'
  | copy (x : ThreadId) (t : TxnId) (T : Transaction) (B : Buffer) : act = .copy x t → s.txn t = some T →
      T.buffer = some b → s.buf b = some B → BufFrom s act b B'

theorem BufFrom.of_update {r : TxnState} {B₀ : Option Buffer} (h : r.buf = Function.update s.buf u B₀)
    (hB₀ : ∀ C, B₀ = some C → BufFrom s act u C) (hB' : r.buf b = some B') : BufFrom s act b B' := by
  rw [h] at hB'
  rcases eq_or_ne b u with rfl | hne
  · exact hB₀ B' (by rwa [Function.update_self] at hB')
  · exact .old B' (by rwa [Function.update_of_ne hne] at hB') rfl

/-- What a step of a task does to the buffers. -/
theorem ActStep.bufFrom (h : ActStep L s a rest env act s') (hB' : s'.buf b = some B') :
    BufFrom s act b B' := by
  have hsame {s₁ : TxnState} (he : s₁.buf = s.buf) (hB' : s₁.buf b = some B') : BufFrom s act b B' :=
    .old B' (by rwa [← he]) rfl
  cases h with
  | @sendAlloc x tp n irt th oneWay =>
    refine .of_update (u := s.nextBuf) (r := s.allocTxn x tp n irt th oneWay) rfl ?_ hB'
    rintro _ ⟨⟩
    exact .alloc rfl rfl
  | accepted hT hb hB hn he => exact hsame (binderProcTransaction_spec he).1.buf hB'
  | rejected hT hb hB hn he => exact hsame (binderProcTransaction_spec he).1.buf hB'
  | buildReply hd hpop => exact hsame (SameBufs.pop hpop).1.buf hB'
  | pop hpop => exact hsame (SameBufs.pop hpop).1.buf hB'
  | failedReply hT hy hpop =>
    refine hsame (SameBufs.pop hpop).1.buf ?_
    rw [TxnState.setFrames_buf] at hB'
    split at hB' <;> exact hB'
  | @freeLinked t T p c s₁ hT hp hb hs₁ =>
    obtain ⟨B, hB, hs₁⟩ := Option.bind_eq_some_iff.mp hs₁
    cases hs₁
    refine .of_update (u := c) (r := s.setBuf c (some { B with transaction := none })) rfl ?_ hB'
    rintro _ ⟨⟩
    exact .old B hB rfl
  | @unwind t irt T c hT hb => exact .of_update (u := c) (r := s.setBuf c none) rfl (by simp) hB'
  | @freeBufLinked c B t T hB ht hT =>
    refine .of_update (u := c) (r := s.setBuf c (some { B with transaction := none })) rfl ?_ hB'
    rintro _ ⟨⟩
    exact .old B hB rfl
  | @freeBufRelease c B hB hn => exact .of_update (u := c) (r := s.setBuf c none) rfl (by simp) hB'
  | @asyncNext c B n w ws hB ha hn hf hl =>
    exact hsame (selectThread_spec (s := (s.setTodo (.node n) ws).enqueue (.proc B.proc) w) B.proc).1.buf hB'
  | @deliverFail x t T c B hT hb hB =>
    refine .of_update (u := c) (r := s.setBuf c (some { B with transaction := none })) rfl ?_ hB'
    rintro _ ⟨⟩
    exact .old B hB rfl
  | @copy x t T c B hT hb hB =>
    refine .of_update (u := c) (r := s.setBuf c (some { B with allowUserFree := true })) rfl ?_ hB'
    rintro _ ⟨⟩
    exact .copy x t T B rfl hT hb hB
  | _ => exact .old B' hB' rfl

theorem ActStep.nextBuf_le (h : ActStep L s a rest env act s') : s.nextBuf ≤ s'.nextBuf := by
  cases h with
  | sendAlloc => exact Nat.le_succ _
  | accepted hT hb hB hn he => exact (binderProcTransaction_spec he).1.nextBuf.ge
  | rejected hT hb hB hn he => exact (binderProcTransaction_spec he).1.nextBuf.ge
  | buildReply hd hpop =>
    obtain ⟨T, -, -, -, rfl⟩ := pop_eq hpop
    exact le_rfl
  | pop hpop =>
    obtain ⟨T, -, -, -, rfl⟩ := pop_eq hpop
    exact le_rfl
  | failedReply hT hy hpop =>
    obtain ⟨T, -, -, -, rfl⟩ := pop_eq hpop
    rw [TxnState.setFrames_nextBuf]
    split <;> exact le_rfl
  | freeLinked hT hp hb hs₁ =>
    obtain ⟨B, hB, hs₁⟩ := Option.bind_eq_some_iff.mp hs₁
    cases hs₁
    exact le_rfl
  | @asyncNext c B n w ws hB ha hn hf hl =>
    exact (selectThread_spec (s := (s.setTodo (.node n) ws).enqueue (.proc B.proc) w) B.proc).1.nextBuf.ge
  | _ => exact le_rfl

/-- `x` copies the transaction of `b` to user space, and the copy succeeds. -/
def Delivers (s : TxnState) (op : TxnOp) (x : ThreadId) (b : BufId) : Prop :=
  ∃ t T env rest, op = .run (.thread x) env ∧ env.ok = true ∧
    s.frames (.thread x) = .copy x t :: rest ∧ s.txn t = some T ∧ T.buffer = some b

/-- What a step does to the buffers. -/
structure BufsFrom (s : TxnState) (op : TxnOp) (s' : TxnState) : Prop where
  buf : ∀ {b B'}, s'.buf b = some B' → (∃ B, s.buf b = some B) ∨ b = s.nextBuf
  allowed : ∀ {b B'}, s'.buf b = some B' → B'.allowUserFree = true →
    (∃ B, s.buf b = some B ∧ B.allowUserFree = true) ∨ ∃ x, Delivers s op x b
  next : s.nextBuf ≤ s'.nextBuf

theorem BufsFrom.of_old (h : ∀ b B', s'.buf b = some B' → ∃ B, s.buf b = some B ∧
    (B'.allowUserFree = true → B.allowUserFree = true)) (hn : s'.nextBuf = s.nextBuf) : BufsFrom s op s' where
  buf hB' := .inl ((h _ _ hB').imp fun _ h => h.1)
  allowed hB' hf := .inl ((h _ _ hB').imp fun _ h => ⟨h.1, h.2 hf⟩)
  next := hn.ge

theorem BufsFrom.of_eq (h : s'.buf = s.buf) (hn : s'.nextBuf = s.nextBuf) : BufsFrom s op s' :=
  .of_old (fun b B' hB' => ⟨B', by rwa [← h], id⟩) hn

theorem threadRelease_bufsFrom {fuel : Nat} (he : s.threadRelease a x fuel = some s') : BufsFrom s op s' := by
  obtain ⟨-, s₁, hs₁, m, -, rfl⟩ := threadRelease_eq he
  have hmain := releaseStack_rule (s := s.setThread x { s.thread x with isDead := true })
    (I := fun s₂ _ => (∀ b B', s₂.buf b = some B' → ∃ B, s.buf b = some B ∧
      (B'.allowUserFree = true → B.allowUserFree = true)) ∧ s₂.nextBuf = s.nextBuf)
    ?_ ⟨fun b B' hB' => ⟨B', hB', id⟩, rfl⟩ hs₁
  · exact .of_old hmain.1 hmain.2
  · rintro s₂ t s₃ o ⟨h₁, h₂⟩ ht
    cases ht with
    | served T c C hT hx hc hC =>
      refine ⟨fun b B' hB' => ?_, h₂⟩
      rcases eq_or_ne b c with rfl | hne
      · simp at hB'
        obtain ⟨B, hB, hf⟩ := h₁ b C hC
        exact ⟨B, hB, by rw [← hB']; exact hf⟩
      · exact h₁ b B' (by simpa [hne] using hB')
    | unlinked T hT hx hb => exact ⟨h₁, h₂⟩
    | sent T hT hx hf => exact ⟨h₁, h₂⟩

theorem exec_bufsFrom (hi : Inv L s) (he : s.exec L op = some s') : BufsFrom s op s' := by
  cases op with
  | transaction x n oneWay =>
    simp only [TxnState.exec, bind, Option.bind_eq_some_iff, Option.guard_eq_some', exists_const] at he
    obtain ⟨hidle, tp, -, he⟩ := he
    cases he
    exact .of_eq rfl rfl
  | reply x oneWay =>
    simp only [TxnState.exec, bind, Option.bind_eq_some_iff, Option.guard_eq_some', exists_const] at he
    obtain ⟨hidle, irt, -, T, -, -, he⟩ := he
    cases he
    exact .of_eq rfl rfl
  | read x =>
    simp only [TxnState.exec, bind, Option.bind_eq_some_iff, Option.guard_eq_some', exists_const] at he
    obtain ⟨hidle, he⟩ := he
    cases he
    exact .of_eq rfl rfl
  | freeBuffer x c =>
    simp only [TxnState.exec, bind, Option.bind_eq_some_iff, Option.guard_eq_some', exists_const] at he
    obtain ⟨hidle, C, hC, -, -, he⟩ := he
    cases he
    refine .of_old (fun b B' hB' => ?_) rfl
    rcases eq_or_ne b c with rfl | hne
    · simp at hB'
      exact ⟨C, hC, by rw [← hB']; simp⟩
    · exact ⟨B', by simpa [hne] using hB', id⟩
  | threadExit x fuel =>
    simp only [TxnState.exec, bind, Option.bind_eq_some_iff, Option.guard_eq_some', exists_const] at he
    exact threadRelease_bufsFrom he.2
  | releaseThread p x fuel =>
    simp only [TxnState.exec, bind, Option.bind_eq_some_iff, Option.guard_eq_some', exists_const] at he
    exact threadRelease_bufsFrom he.2.2.2
  | releaseNode p n =>
    simp only [TxnState.exec, bind, Option.bind_eq_some_iff, Option.guard_eq_some', exists_const] at he
    obtain ⟨-, -, he⟩ := he
    cases he
    exact .of_eq rfl rfl
  | releaseTodo p =>
    simp only [TxnState.exec, bind, Option.bind_eq_some_iff, Option.guard_eq_some', exists_const] at he
    obtain ⟨-, he⟩ := he
    cases he
    exact .of_eq rfl rfl
  | addThreadWork x type deferred =>
    simp only [TxnState.exec, bind, Option.bind_eq_some_iff, Option.guard_eq_some', exists_const] at he
    obtain ⟨-, he⟩ := he
    cases he
    cases deferred <;> exact .of_eq rfl rfl
  | procDeath | addProcWork | dropWork =>
    cases he
    exact .of_eq rfl rfl
  | run a env =>
    simp only [TxnState.exec] at he
    split at he
    · cases he
    rename_i act rest hfr
    have hstep := execAct_cases he
    refine ⟨fun {b B'} hB' => ?_, fun {b B'} hB' hf => ?_, hstep.nextBuf_le⟩
    · rcases hstep.bufFrom hB' with ⟨B, hB, -⟩ | ⟨hb, -⟩ | ⟨x, t, T, B, -, -, -, hB⟩
      · exact .inl ⟨B, hB⟩
      · exact .inr hb
      · exact .inl ⟨B, hB⟩
    · rcases hstep.bufFrom hB' with ⟨B, hB, hu⟩ | ⟨hb, hu⟩ | ⟨x, t, T, B, rfl, hT, hb, hB⟩
      · exact .inl ⟨B, hB, hu.symm.trans hf⟩
      · rw [hf] at hu
        cases hu
      · obtain rfl := hi.self (hfr ▸ List.mem_cons_self : .copy x t ∈ s.frames a) rfl
        cases hok : env.ok with
        | true => exact .inr ⟨x, t, T, env, rest, rfl, hok, hfr, hT, hb⟩
        | false =>
          -- a copy that fails leaves the buffers
          simp only [TxnState.execAct, hT, hb, hB, hok, Option.bind_eq_bind, Option.bind_some] at he
          cases he
          exact .inl ⟨B', hB', hf⟩

/-! ## The phases, forward only -/

/-- The order of the phases. -/
def Phase.rank : Phase → Nat
  | .sending _ => 0
  | .queued (.node _) _ => 1
  | .queued _ _ => 2
  | .reading _ => 3
  | .user => 4
  | .freeing => 5
  | .released => 6

/-- From the phase `p` a buffer has gone on to another one, or it is in no phase any more. -/
def Later (s : TxnState) (b : BufId) (p : Phase) : Prop :=
  (∀ q, ¬ InPhase s b q) ∨ ∃ q, InPhase s b q ∧ p.rank < q.rank

theorem Phase.rank_queued {l : WorkList} (hl : ∀ n, l ≠ .node n) : (Phase.queued l t).rank = 2 := by
  cases l with
  | node n => exact absurd rfl (hl n)
  | _ => rfl

theorem BufStep.forward (hi : Inv L s) (h : BufStep L s op s' ev) (hb : InPhase s b p) :
    InPhase s' b p ∨ Later s' b p := by
  have hsame (h : Same s s' b) : InPhase s' b p ∨ Later s' b p := .inl ((h.phase p).mpr hb)
  have hgone (hn : s'.buf b = none) : InPhase s' b p ∨ Later s' b p := by
    refine .inr (.inl fun q hq => ?_)
    obtain ⟨B, hB⟩ := hq.buf
    rw [hn] at hB
    cases hB
  have hmove {c : BufId} {q r : Phase} (hm : Moves s s' c q r) (hr : q.rank < r.rank) :
      InPhase s' b p ∨ Later s' b p := by
    rcases eq_or_ne b c with rfl | hne
    · rw [hb.unique hi hm.before]
      exact .inr (.inr ⟨r, hm.after, hr⟩)
    · exact hsame (hm.other b hne)
  have hlose {c : BufId} {q : Phase} (hm : Loses s s' c q) : InPhase s' b p ∨ Later s' b p := by
    rcases eq_or_ne b c with rfl | hne
    · exact .inr (.inl hm.after)
    · exact hsame (hm.other b hne)
  cases h with
  | stay h => exact hsame (h b)
  | alloc c t hn hlt hc h =>
    refine hsame (h b ?_)
    rintro rfl
    obtain ⟨B, hB⟩ := hb.buf
    rw [hn] at hB
    cases hB
  | reject n hd h => exact hsame (h b)
  | abort c t hc hn h =>
    rcases eq_or_ne b c with rfl | hne
    · exact hgone hn
    · exact hsame (h b hne)
  | accept t c B l e hB hm hl => exact hmove hm (by rw [Phase.rank_queued hl]; exact Nat.zero_lt_two)
  | wait t c B n hB ha hn hf hm => exact hmove hm Nat.zero_lt_one
  | take t c l hl hm => exact hmove hm (by rw [Phase.rank_queued hl]; exact Nat.lt_succ_self 2)
  | drop t c l hd hm => exact hlose hm
  | lose a env x t rest c ho hok hfr hm => exact hlose hm
  | toUser c t hm => exact hmove hm (Nat.lt_succ_self 3)
  | toFree c q hq hm =>
    refine hmove hm ?_
    rcases hq with ⟨t, rfl⟩ | rfl <;> simp [Phase.rank]
  | last c B n hB ha hn hc hm => exact hmove hm (Nat.lt_succ_self 5)
  | next c B n t c₂ hB ha hn hne hc hc' h₁ h₂ h₃ h₄ hk h =>
    by_cases hbc : b = c
    · subst hbc
      rw [hb.unique hi h₁]
      exact .inr (.inr ⟨_, h₂, Nat.lt_succ_self 5⟩)
    · by_cases hbc₂ : b = c₂
      · subst hbc₂
        rw [hb.unique hi h₃]
        exact .inr (.inr ⟨_, h₄, Nat.lt_succ_self 1⟩)
      · exact hsame (h b hbc hbc₂)
  | pass c B hB ha hm => exact hmove hm (Nat.lt_succ_self 5)
  | free c hc hn h =>
    rcases eq_or_ne b c with rfl | hne
    · exact hgone hn
    · exact hsame (h b hne)

/-- A buffer that is in no phase any more stays so. -/
theorem BufStep.ended (h : BufStep L s op s' ev) (hf : BufsFrom s op s') (hlt : b < s.nextBuf)
    (hb : ∀ q, ¬ InPhase s b q) : ∀ q, ¬ InPhase s' b q := by
  have hsame (h : Same s s' b) : ∀ q, ¬ InPhase s' b q := fun q hq => hb q ((h.phase q).mp hq)
  have hmove {c : BufId} {q r : Phase} (hm : Moves s s' c q r) : ∀ q, ¬ InPhase s' b q :=
    hsame (hm.other b fun he => hb q (he ▸ hm.before))
  have hlose {c : BufId} {q : Phase} (hm : Loses s s' c q) : ∀ q, ¬ InPhase s' b q :=
    hsame (hm.other b fun he => hb q (he ▸ hm.before))
  cases h with
  | stay h => exact hsame (h b)
  | alloc c t hn hlt' hc h =>
    refine hsame (h b ?_)
    rintro rfl
    obtain ⟨B, hB⟩ := hc.buf
    rcases hf.buf hB with ⟨B₀, hB₀⟩ | rfl
    · rw [hn] at hB₀
      cases hB₀
    · exact lt_irrefl _ hlt
  | reject n hd h => exact hsame (h b)
  | abort c t hc hn h => exact hsame (h b fun he => hb _ (he ▸ hc))
  | accept t c B l e hB hm hl => exact hmove hm
  | wait t c B n hB ha hn hf' hm => exact hmove hm
  | take t c l hl hm => exact hmove hm
  | drop t c l hd hm => exact hlose hm
  | lose a env x t rest c ho hok hfr hm => exact hlose hm
  | toUser c t hm => exact hmove hm
  | toFree c q hq hm => exact hmove hm
  | last c B n hB ha hn hc hm => exact hmove hm
  | next c B n t c₂ hB ha hn hne hc hc' h₁ h₂ h₃ h₄ hk h =>
    exact hsame (h b (fun he => hb _ (he ▸ h₁)) fun he => hb _ (he ▸ h₃))
  | pass c B hB ha hm => exact hmove hm
  | free c hc hn h => exact hsame (h b fun he => hb _ (he ▸ hc))

/-- A run that goes on. -/
theorem reach_from (h : (txnSys L).Reach s) (h' : (Sys.ofExec (· = s) (TxnState.exec L)).Reach s') :
    (txnSys L).Reach s' := by
  refine h'.inv (I := fun s' => (txnSys L).Reach s') ?_ ?_
  · rintro _ rfl
    exact h
  · rintro s₁ op s₂ hr he
    exact hr.next he

/-- From every state of a run a buffer goes forward through the phases, and once it is in none it stays
so. -/
theorem later_of_reach (h : (txnSys L).Reach s) (hlt : b < s.nextBuf) (hb : Later s b p)
    (h' : (Sys.ofExec (· = s) (TxnState.exec L)).Reach s') : Later s' b p := by
  refine (h'.inv (I := fun s' => (txnSys L).Reach s' ∧ b < s'.nextBuf ∧ Later s' b p) ?_ ?_).2.2
  · rintro _ rfl
    exact ⟨h, hlt, hb⟩
  · rintro s₁ op s₂ ⟨hr, hlt, hb⟩ he
    obtain ⟨hi, hs⟩ := inv_of_reach hr
    have hbs := exec_bufStep hi hs he
    have hf := exec_bufsFrom hi he
    refine ⟨hr.next he, hlt.trans_le hf.next, ?_⟩
    rcases hb with hb | ⟨q, hq, hpq⟩
    · exact .inl (hbs.ended hf hlt hb)
    · rcases hbs.forward hi hq with hq | hq | ⟨r, hr, hqr⟩
      · exact .inr ⟨q, hq, hpq⟩
      · exact .inl hq
      · exact .inr ⟨r, hr, hpq.trans hqr⟩

/-- A buffer that user space may free keeps its process. -/
theorem BufStep.proc_of_allowed (h : BufStep L s op s' ev) (hi : Inv L s') (hB' : s'.buf b = some B')
    (hf : B'.allowUserFree = true) : ∃ B, s.buf b = some B ∧ B.proc = B'.proc := by
  rcases h.kind hB' with ⟨B, hB, hk⟩ | ⟨t, ht⟩
  · exact ⟨B, hB, congrArg Prod.fst hk⟩
  · have huser : InPhase s' b .user := ⟨B', hB', hf⟩
    cases huser.unique hi ht

/-- Who delivers a buffer is of the process of the buffer. -/
theorem Delivers.proc (h : (txnSys L).Reach s) (hd : Delivers s op x b) (hB : s.buf b = some B) :
    B.proc = L.procOf x := by
  obtain ⟨t, T, env, rest, -, -, hfr, hT, hb⟩ := hd
  obtain ⟨-, -, G, hsim⟩ := sim_of_reach h
  have hto := hsim.tasks.brought (hfr ▸ List.mem_cons_self : .copy x t ∈ s.frames (.thread x)) rfl hT
  rw [(hsim.data.kind hT hb hB).1] at hto
  exact Option.some.inj hto

/-- What user space may free has been delivered, by a thread of the process of the buffer. -/
theorem allowed_of_run {past : List (TxnState × TxnOp)} (h : (txnSys L).Run past s) (hB : s.buf b = some B)
    (hf : B.allowUserFree = true) : ∃ e ∈ past, ∃ y, L.procOf y = B.proc ∧ Delivers e.1 e.2 y b := by
  induction h generalizing B with
  | init h =>
    cases h
    cases hB
  | @step past s op s' h he ih =>
    obtain ⟨hi, hs⟩ := inv_of_reach h.reach
    obtain ⟨B₀, hB₀, hp⟩ := (exec_bufStep hi hs he).proc_of_allowed (hi.exec hs he) hB hf
    rcases (exec_bufsFrom hi he).allowed hB hf with ⟨B₁, hB₁, hf₁⟩ | ⟨y, hd⟩
    · obtain rfl : B₀ = B₁ := Option.some.inj (hB₀.symm.trans hB₁)
      obtain ⟨e, he, y, hy, hd⟩ := ih hB₀ hf₁
      exact ⟨e, List.mem_cons_of_mem _ he, y, hy.trans hp, hd⟩
    · exact ⟨_, List.mem_cons_self, y, (hd.proc h.reach hB₀).symm.trans hp, hd⟩

/-- In every run, `BC_FREE_BUFFER` succeeds only for an allocated buffer of the process of the thread, and
only after a thread of this process has delivered it; then the buffer is in the hands of that one task, and
however the run goes on, `BC_FREE_BUFFER` never succeeds for it again, from any thread. -/
theorem freed_once {past : List (TxnState × TxnOp)} (h : (txnSys L).Run past s)
    (he : s.exec L (.freeBuffer x b) = some s₁) :
    (∃ B, s.buf b = some B ∧ B.proc = L.procOf x) ∧
      (∃ e ∈ past, ∃ y, L.procOf y = L.procOf x ∧ Delivers e.1 e.2 y b) ∧
      InPhase s b .user ∧ InPhase s₁ b .freeing ∧
      ∀ s', (Sys.ofExec (· = s₁) (TxnState.exec L)).Reach s' → ∀ y, s'.exec L (.freeBuffer y b) = none := by
  have hallowed {s s' : TxnState} {x : ThreadId} (he : s.exec L (.freeBuffer x b) = some s') :
      ∃ B, s.buf b = some B ∧ B.proc = L.procOf x ∧ B.allowUserFree = true := by
    simp only [TxnState.exec, bind, Option.bind_eq_some_iff, Option.guard_eq_some', exists_const] at he
    obtain ⟨-, B, hB, hp, hf, -⟩ := he
    exact ⟨B, hB, hp, hf⟩
  have hnext := h.reach.next he
  obtain ⟨B, hB, hp, hf⟩ := hallowed he
  have hfree : InPhase s₁ b .freeing := by
    simp only [TxnState.exec, bind, Option.bind_eq_some_iff, Option.guard_eq_some', exists_const] at he
    obtain ⟨-, B, hB, -, hf, he⟩ := he
    cases he
    exact ⟨by simp, .thread x, .freeBuf b, by simp, rfl⟩
  have hi := (inv_of_reach hnext).1
  obtain ⟨B₁, hB₁⟩ := hfree.buf
  obtain ⟨e, hmem, y, hy, hd⟩ := allowed_of_run h hB hf
  refine ⟨⟨B, hB, hp⟩, ⟨e, hmem, y, hy.trans hp, hd⟩, ⟨B, hB, hf⟩, hfree, fun s' h' y => ?_⟩
  -- the buffer is past the phase `user`
  have hlater := later_of_reach hnext (hi.links.buf_lt hB₁)
    (.inr ⟨_, hfree, Nat.lt_succ_self 4⟩ : Later s₁ b .user) h'
  cases he' : s'.exec L (.freeBuffer y b) with
  | none => rfl
  | some s₂ =>
    obtain ⟨B', hB', -, hf'⟩ := hallowed he'
    have huser : InPhase s' b .user := ⟨B', hB', hf'⟩
    rcases hlater with hno | ⟨q, hq, hlt⟩
    · exact absurd huser (hno _)
    · rw [huser.unique (inv_of_reach (reach_from hnext h')).1 hq] at hlt
      exact absurd hlt (lt_irrefl _)

/-- A transaction has been sent and delivered. -/
def deliveredFirst : TxnState :=
  (Sys.execIf (TxnState.exec twoProcs) (fun _ _ => True) (start twoProcs)
    (sendOneWay ++ readUpToCopy ++ goOn 1 3)).get (by decide)

theorem freed_deliveredFirst : ∃ (past : List (TxnState × TxnOp)) (s₁ : TxnState),
    deliveredFirst.exec twoProcs (.freeBuffer 1 0) = some s₁ ∧
    (∃ e ∈ past, ∃ y, twoProcs.procOf y = twoProcs.procOf 1 ∧ Delivers e.1 e.2 y 0) ∧
    ∀ s', (Sys.ofExec (· = s₁) (TxnState.exec twoProcs)).Reach s' →
      ∀ y, s'.exec twoProcs (.freeBuffer y 0) = none := by
  have hr : (txnSys twoProcs).Reach deliveredFirst := Sys.ReachIf.execIf (.init rfl) (Option.some_get _).symm
  obtain ⟨past, hrun, -⟩ := hr.run
  have he : deliveredFirst.exec twoProcs (.freeBuffer 1 0) = some ((deliveredFirst.setBuf 0 (some
    ⟨1, true, some 0, none, false⟩)).setFrames (.thread 1) [.freeBuf 0]) := rfl
  have h := freed_once hrun he
  exact ⟨past, _, he, h.2.1, h.2.2.2.2⟩

end Redroid.Binder.Txn
