import Redroid.Binder.TxnInv

/-!
# Every step keeps the invariant of the transactions

One lemma for each kind of move between a work list and a task, one for each act that changes more
than the control state (`Inv.execAct`), one for the ioctl commands (`Inv.exec`), and the invariant
of every run (`inv_of_reach`).
-/

namespace Redroid.Binder.Txn

variable {L : Layout} {s s' : TxnState} {t u : TxnId} {b : BufId} {x y : ThreadId}
  {T : Transaction} {B : Buffer} {a : Actor} {act : Act} {rest new : List Act} {env : Env}
  {l : WorkList} {ws : List Work}

/-! ## Moves -/

theorem contents_update (htodo : s'.todo = Function.update s.todo l ws)
    (hfr : s'.frames = Function.update s.frames a new) :
    s'.contents = Function.update (Function.update s.contents (.list l)
      (ws.filterMap Work.txn?)) (.actor a) (new.filterMap Act.holds) := by
  rw [← TxnState.contents_setTodo, ← TxnState.contents_setFrames]
  funext p
  cases p <;> simp [TxnState.contents, htodo, hfr]

theorem filterMap_enqueue_other {k : WorkType} (l' : WorkList) :
    (Function.update s.todo l (s.todo l ++ [.other k]) l').filterMap Work.txn? =
      (s.todo l').filterMap Work.txn? := by
  rcases eq_or_ne l' l with rfl | hne
  · rw [Function.update_self, List.filterMap_append]; simp [Work.txn?]
  · rw [Function.update_of_ne hne]

section Move

variable (h : Inv L s) (hfr : s.frames a = act :: rest) (hd : SameData s s')
  (hnode : ∀ n p, (s'.node n).proc = some p → (s.node n).proc = some p)
include h hfr hd hnode

/-- The task `a` puts the transaction that it holds at the end of a list. -/
theorem Inv.enqueue (new : List Act) (htodo : s'.todo = Function.update s.todo l (s.todo l ++ [.transaction t]))
    (hfr' : s'.frames = Function.update s.frames a (new ++ rest)) (ht : act.holds = some t)
    (hnew : new.filterMap Act.holds = []) (hff : (new.filterMap Act.frees).Sublist act.frees.toList)
    (hfit : ∀ act' ∈ new, Fits L s act new (fun _ => False) act')
    (hat : ∀ T b B, Live L s t T b B → AtPlace L B (.list l)) : Inv L s' := by
  have hmem : t ∈ s.contents (.actor a) := by
    rw [contents_actor hfr, ht]; exact List.mem_cons_self
  have hnl : t ∉ s.contents (.list l) := fun hl => by cases h.placed.unique hl hmem
  have hsub : (rest.filterMap Act.holds).Sublist (s.contents (.actor a)) := by
    rw [contents_actor hfr]; exact List.sublist_append_right _ _
  have hcont : s'.contents = Function.update (Function.update s.contents (.actor a)
      (rest.filterMap Act.holds)) (.list l) (s.contents (.list l) ++ [t]) := by
    rw [contents_update htodo hfr', Function.update_comm (by simp), List.filterMap_append,
      List.filterMap_append, hnew]
    rfl
  refine h.step hfr hd hfr' (.refl _) hnode ?_ ?_ hff (fun _ => False.elim) hfit
  · rw [hcont]
    refine h.placed.move hmem hsub (h.holds_not_rest hfr ht) (by simp) ?_ ?_
    · exact List.nodup_append.mpr ⟨h.placed.nodup _, List.nodup_singleton _, fun u hu v hv huv => by
        rw [List.mem_singleton] at hv; subst hv; subst huv; exact hnl hu⟩
    · intro u hu
      rcases List.mem_append.mp hu with hu | hu
      · exact .inr hu
      · exact .inl (List.mem_singleton.mp hu)
  · intro u p hu
    rw [hcont] at hu
    rcases eq_or_ne p (.list l) with rfl | hne
    · rw [Function.update_self, List.mem_append, List.mem_singleton] at hu
      rcases hu with hu | rfl
      · exact .inl hu
      · exact .inr ⟨⟨_, hmem⟩, hat⟩
    · rw [Function.update_of_ne hne] at hu
      rcases eq_or_ne p (.actor a) with rfl | hne'
      · rw [Function.update_self] at hu; exact .inl (hsub.subset hu)
      · rw [Function.update_of_ne hne'] at hu; exact .inl hu

/-- The task `a` takes the first transaction off a list, and holds it or not. -/
theorem Inv.dequeue (new : List Act) (hl : s.todo l = .transaction t :: ws)
    (htodo : s'.todo = Function.update s.todo l ws)
    (hfr' : s'.frames = Function.update s.frames a (new ++ rest)) (ht : act.holds = none)
    (hnew : (new.filterMap Act.holds).Sublist [t])
    (hff : (new.filterMap Act.frees).Sublist act.frees.toList)
    (hfit : ∀ act' ∈ new,
      Fits L s act new (fun u => u = t ∧ new.filterMap Act.holds = []) act') : Inv L s' := by
  have hlist : s.contents (.list l) = t :: ws.filterMap Work.txn? := by
    simp [TxnState.contents, hl, Work.txn?]
  have hmem : t ∈ s.contents (.list l) := by rw [hlist]; exact List.mem_cons_self
  have htl : t ∉ ws.filterMap Work.txn? := by
    have := h.placed.nodup (.list l)
    rw [hlist] at this
    exact (List.nodup_cons.mp this).1
  have hactor : s.contents (.actor a) = rest.filterMap Act.holds := by
    rw [contents_actor hfr, ht]; rfl
  have hna : t ∉ rest.filterMap Act.holds := fun hr => by
    rw [← hactor] at hr
    cases h.placed.unique hr hmem
  have hcont := contents_update htodo hfr'
  have hin : ∀ u ∈ (new ++ rest).filterMap Act.holds, u = t ∨ u ∈ s.contents (.actor a) := by
    intro u hu
    rw [List.filterMap_append, List.mem_append] at hu
    rcases hu with hu | hu
    · exact .inl (List.mem_singleton.mp (hnew.subset hu))
    · exact .inr (hactor ▸ hu)
  refine h.step hfr hd hfr' (.refl _) hnode ?_ ?_ hff ?_ hfit
  · rw [hcont]
    refine h.placed.move hmem (hlist ▸ List.sublist_cons_self _ _) htl (by simp) ?_ hin
    rw [List.filterMap_append]
    refine (List.Sublist.append_right hnew _).nodup ?_
    exact List.nodup_cons.mpr ⟨hna, hactor ▸ h.placed.nodup _⟩
  · intro u p hu
    rw [hcont] at hu
    rcases eq_or_ne p (.actor a) with rfl | hne
    · rw [Function.update_self] at hu
      rcases hin u hu with rfl | hu
      · exact .inr ⟨⟨_, hmem⟩, fun _ _ _ _ => trivial⟩
      · exact .inl hu
    · rw [Function.update_of_ne hne] at hu
      rcases eq_or_ne p (.list l) with rfl | hne'
      · rw [Function.update_self] at hu
        exact .inl (hlist ▸ List.mem_cons_of_mem _ hu)
      · rw [Function.update_of_ne hne'] at hu; exact .inl hu
  · rintro u ⟨rfl, hn⟩
    refine ⟨⟨_, hmem⟩, ?_⟩
    rw [hcont, List.filterMap_append, hn]
    rintro ⟨p, hu⟩
    rcases eq_or_ne p (.actor a) with rfl | hne
    · rw [Function.update_self] at hu; exact hna hu
    · rw [Function.update_of_ne hne] at hu
      exact h.placed.not_onList hmem htl ⟨p, hu⟩

/-- The first transaction of one list goes to the end of another one. -/
theorem Inv.requeue (new : List Act) {q : WorkList} (hl : s.todo l = .transaction t :: ws)
    (hne : q ≠ l) (htodo : s'.todo =
      Function.update (Function.update s.todo l ws) q (s.todo q ++ [.transaction t]))
    (hfr' : s'.frames = Function.update s.frames a (new ++ rest))
    (hnew : new.filterMap Act.holds = act.holds.toList)
    (hff : (new.filterMap Act.frees).Sublist act.frees.toList)
    (hfit : ∀ act' ∈ new, Fits L s act new (fun _ => False) act')
    (hat : ∀ T b B, Live L s t T b B → AtPlace L B (.list l) → AtPlace L B (.list q)) :
    Inv L s' := by
  have hlist : s.contents (.list l) = t :: ws.filterMap Work.txn? := by
    simp [TxnState.contents, hl, Work.txn?]
  have hmem : t ∈ s.contents (.list l) := by rw [hlist]; exact List.mem_cons_self
  have htl : t ∉ ws.filterMap Work.txn? := by
    have := h.placed.nodup (.list l)
    rw [hlist] at this
    exact (List.nodup_cons.mp this).1
  have hnl : t ∉ s.contents (.list q) := fun hq => by
    cases h.placed.unique hq hmem
    exact hne rfl
  have hcont : s'.contents = Function.update (Function.update s.contents (.list l)
      (ws.filterMap Work.txn?)) (.list q) (s.contents (.list q) ++ [t]) := by
    have hs : s'.contents = (((s.setTodo l ws).setTodo q (s.todo q ++ [.transaction t])).setFrames a
        (new ++ rest)).contents := by
      funext p
      cases p <;> simp [TxnState.contents, htodo, hfr']
    have hact : (new ++ rest).filterMap Act.holds = s.contents (.actor a) := by
      rw [List.filterMap_append, hnew, contents_actor hfr]
    rw [hs, TxnState.contents_setFrames, TxnState.contents_setTodo, TxnState.contents_setTodo, hact,
      List.filterMap_append]
    refine Function.update_eq_iff.mpr ⟨?_, fun _ _ => rfl⟩
    rw [Function.update_of_ne (by simp), Function.update_of_ne (by simp)]
  refine h.step hfr hd hfr' (.refl _) hnode ?_ ?_ hff (fun _ => False.elim) hfit
  · rw [hcont]
    refine h.placed.move hmem (hlist ▸ List.sublist_cons_self _ _) htl (by simpa using hne) ?_ ?_
    · exact List.nodup_append.mpr ⟨h.placed.nodup _, List.nodup_singleton _, fun u hu v hv huv => by
        rw [List.mem_singleton] at hv; subst hv; subst huv; exact hnl hu⟩
    · intro u hu
      rcases List.mem_append.mp hu with hu | hu
      · exact .inr hu
      · exact .inl (List.mem_singleton.mp hu)
  · intro u p hu
    rw [hcont] at hu
    rcases eq_or_ne p (.list q) with rfl | hne
    · rw [Function.update_self, List.mem_append, List.mem_singleton] at hu
      rcases hu with hu | rfl
      · exact .inl hu
      · refine .inr ⟨⟨_, hmem⟩, fun T b B hl => hat T b B hl ?_⟩
        obtain ⟨T', b', B', hq, -, hat₁⟩ := h.live hmem
        obtain ⟨-, -, rfl⟩ := hq.eq hl.txn hl.buffer hl.buf
        exact hat₁
    · rw [Function.update_of_ne hne] at hu
      rcases eq_or_ne p (.list l) with rfl | hne'
      · rw [Function.update_self] at hu
        exact .inl (hlist ▸ List.mem_cons_of_mem _ hu)
      · rw [Function.update_of_ne hne'] at hu; exact .inl hu

end Move

/-! ## The acts of `binder_transaction` -/

theorem findThread_proc {tp : ProcId} {fuel : Nat} {o : Option TxnId}
    (h : s.findThread L tp fuel o = some (some y)) : L.procOf y = tp := by
  induction fuel generalizing o with
  | zero => cases o <;> simp [TxnState.findThread] at h
  | succ fuel ih =>
    cases o with
    | none => simp [TxnState.findThread] at h
    | some tmp =>
      simp only [TxnState.findThread, bind, Option.bind_eq_some_iff] at h
      obtain ⟨T, -, h⟩ := h
      split at h
      · split at h
        · rename_i hp; cases h; exact hp
        · exact ih h
      · exact ih h

section Acts

variable (h : Inv L s)
include h

/-- The task is done with its act. -/
theorem Inv.pass (hfr : s.frames a = act :: rest) : Inv L (s.setFrames a rest) :=
  h.setFrames hfr [] (List.nil_sublist _) (List.nil_sublist _) (by simp)

theorem Inv.exec_check {tp : ProcId} {n : NodeId} {oneWay : Bool}
    (hfr : s.frames a = .check x tp n oneWay :: rest)
    (he : s.execAct L a rest env (.check x tp n oneWay) = some s') : Inv L s' := by
  have hown : ActOk L s.contents s (.check x tp n oneWay) := h.acts (hfr ▸ List.mem_cons_self)
  simp only [ActOk] at hown
  have hsend {th : Option ThreadId} (hne : L.procOf x ≠ tp) (hth : ∀ y, th = some y → L.procOf y = tp)
      (hcalm : oneWay = false → Calm s.contents s x) :
      Inv L (s.setFrames a (.send x tp (some n) none th oneWay :: rest)) :=
    h.setFrames hfr [.send x tp (some n) none th oneWay] (by simp [Act.holds])
      (by simp [Act.frees]) (by simpa [Fits, Act.refs, Act.self, Act.calls, ActOk, hne, hown]
        using ⟨hth, hcalm⟩)
  simp only [TxnState.execAct] at he
  split at he
  · cases he; exact h.pass hfr
  rename_i hne
  have hne : L.procOf x ≠ tp := by simp at hne; exact hne.1
  split at he
  · rename_i how
    cases he
    subst how
    exact hsend hne (by simp) (by simp)
  rename_i how
  rw [Bool.not_eq_true] at how
  subst how
  split at he
  · cases he; exact h.pass hfr
  split at he
  · rename_i hst
    cases he
    exact hsend hne (by simp) fun _ t ht => by rw [hst] at ht; cases ht
  · rename_i tmp hst
    simp only [bind, Option.bind_eq_some_iff] at he
    obtain ⟨T, hT, he⟩ := he
    split at he
    · cases he; exact h.pass hfr
    · rename_i hx
      obtain ⟨th, hth, he⟩ := Option.bind_eq_some_iff.mp he
      cases he
      refine hsend hne (fun y hy => findThread_proc (hy ▸ hth)) fun _ t ht => ?_
      rw [hst] at ht; cases ht
      have hs := h.parents.stack hst
      exact ⟨hs.1, hs.2 T hT (by simpa using hx)⟩

theorem Inv.exec_replyTarget {irt : TxnId} {oneWay : Bool}
    (hfr : s.frames a = .replyTarget x irt oneWay :: rest)
    (he : s.execAct L a rest env (.replyTarget x irt oneWay) = some s') : Inv L s' := by
  have hset : Settled s.contents s irt := h.refs (hfr ▸ List.mem_cons_self) (by simp [Act.refs])
  simp only [TxnState.execAct, bind, Option.bind_eq_some_iff] at he
  obtain ⟨T, -, he⟩ := he
  split at he
  · cases he
    exact h.setFrames hfr [.sendFailedReply irt] (by simp [Act.holds])
      (by simp [Act.frees]) (by simp [Fits, Act.refs, Act.self, Act.calls, ActOk, hset])
  · rename_i y hy
    split at he
    · cases he; exact h.pass hfr
    · cases he
      exact h.setFrames hfr [.send x (L.procOf y) none (some irt) (some y) oneWay]
        (by simp [Act.holds]) (by simp [Act.frees])
        (by simp [Fits, Act.refs, Act.self, Act.calls, ActOk, hset])

/-- The acts of a call that fails: they refer to `in_reply_to` only. -/
theorem Inv.onError {irt : Option TxnId} (hfr : s.frames a = act :: rest)
    (hset : ∀ t, irt = some t → Settled s.contents s t) :
    Inv L (s.setFrames a (TxnState.onError irt ++ rest)) := by
  cases irt with
  | none => exact h.pass hfr
  | some r =>
    exact h.setFrames hfr [.sendFailedReply r] (List.nil_sublist _) (List.nil_sublist _)
      (by simp [Fits, Act.refs, Act.self, Act.calls, ActOk, hset])

omit h in
theorem Links.alloc {tp : ProcId} {n : Option NodeId} {irt : Option TxnId} {th : Option ThreadId}
    {oneWay : Bool} (h : Links s) : Links (s.allocTxn x tp n irt th oneWay) := by
  have hT {u : TxnId} {U : Transaction}
      (hu : (s.allocTxn x tp n irt th oneWay).txn u = some U) :
      s.txn u = some U ∨
        u = s.nextTxn ∧ U.toProc = some tp ∧ U.buffer = some s.nextBuf := by
    rcases eq_or_ne u s.nextTxn with rfl | hne
    · simp only [TxnState.allocTxn, TxnState.setBuf_txn, TxnState.setTxn_txn,
        Function.update_self, Option.some.injEq] at hu
      subst hu
      exact .inr ⟨rfl, rfl, rfl⟩
    · exact .inl (by simpa [TxnState.allocTxn, hne] using hu)
  have hB {b : BufId} {B : Buffer} (hb : (s.allocTxn x tp n irt th oneWay).buf b = some B) :
      s.buf b = some B ∨ b = s.nextBuf ∧ B.transaction = some s.nextTxn := by
    rcases eq_or_ne b s.nextBuf with rfl | hne
    · simp only [TxnState.allocTxn, TxnState.setBuf_buf, Function.update_self,
        Option.some.injEq] at hb
      subst hb
      exact .inr ⟨rfl, rfl⟩
    · exact .inl (by simpa [TxnState.allocTxn, hne] using hb)
  constructor
  · intro b B t hb ht
    rcases hB hb with hb | ⟨rfl, hnew⟩
    · obtain ⟨T, hT, hTb⟩ := h.link hb ht
      exact ⟨T, by simpa [TxnState.allocTxn, (h.txn_lt hT).ne] using hT, hTb⟩
    · rw [hnew] at ht
      cases ht
      simp [TxnState.allocTxn]
  · intro t T u U b ht hu hTb hUb
    rcases hT ht with ht | ⟨rfl, -, hb⟩ <;> rcases hT hu with hu | ⟨rfl, -, hb'⟩
    · exact h.inj ht hu hTb hUb
    · rw [hb'] at hUb; cases hUb
      exact absurd (h.buffer_lt ht hTb) (lt_irrefl _)
    · rw [hb] at hTb; cases hTb
      exact absurd (h.buffer_lt hu hUb) (lt_irrefl _)
    · rfl
  · intro t T ht hp
    rcases hT ht with ht | ⟨-, htp, -⟩
    · exact h.toProc ht hp
    · rw [htp] at hp; cases hp
  · intro t T ht
    rcases hT ht with ht | ⟨rfl, -⟩
    · exact Nat.lt_succ_of_lt (h.txn_lt ht)
    · exact Nat.lt_succ_self _
  · intro t T b ht hb
    rcases hT ht with ht | ⟨-, -, hb'⟩
    · exact Nat.lt_succ_of_lt (h.buffer_lt ht hb)
    · rw [hb'] at hb; cases hb
      exact Nat.lt_succ_self _
  · intro b B hb
    rcases hB hb with hb | ⟨rfl, -⟩
    · exact Nat.lt_succ_of_lt (h.buf_lt hb)
    · exact Nat.lt_succ_self _

/-- A new transaction: the task that makes it holds it. -/
theorem Inv.exec_send {tp : ProcId} {n : Option NodeId} {irt : Option TxnId}
    {th : Option ThreadId} {oneWay : Bool}
    (hfr : s.frames a = .send x tp n irt th oneWay :: rest)
    (he : s.execAct L a rest env (.send x tp n irt th oneWay) = some s') : Inv L s' := by
  have hact : Act.send x tp n irt th oneWay ∈ s.frames a := hfr ▸ List.mem_cons_self
  have hirt : ∀ t, irt = some t → Settled s.contents s t := fun t ht =>
    h.refs hact (by simp [Act.refs, ht])
  have hrest : rest = [] := by
    have := h.alone hact rfl
    rw [hfr, List.cons.injEq] at this
    exact this.2
  subst hrest
  obtain ⟨hth, hown, hn, hcall⟩ : ActOk L s.contents s (.send x tp n irt th oneWay) := h.acts hact
  simp only [TxnState.execAct] at he
  split at he
  case isFalse => cases he; exact h.onError hfr hirt
  cases he
  -- The contents are the old ones and the new transaction, held by `a`.
  let s₁ := s.allocTxn x tp n irt th oneWay
  let s₂ := s₁.setFrames a [.build x s.nextTxn irt th]
  have hcont : s₂.contents = Function.update s.contents (.actor a) [s.nextTxn] := by
    rw [TxnState.contents_setFrames]; rfl
  have hmem : ∀ u p, u ∈ s₂.contents p → u ∈ s.contents p ∨ u = s.nextTxn ∧ p = .actor a := by
    intro u p hu
    rw [hcont] at hu
    rcases eq_or_ne p (.actor a) with rfl | hne
    · rw [Function.update_self, List.mem_singleton] at hu; exact .inr ⟨hu, rfl⟩
    · rw [Function.update_of_ne hne] at hu; exact .inl hu
  have hfree : s₂.freeing = s.freeing := by
    rw [TxnState.freeing_setFrames]
    funext a'
    rcases eq_or_ne a' a with rfl | hne
    · rw [Function.update_self, freeing_actor hfr]; rfl
    · rw [Function.update_of_ne hne]; rfl
  have hset {u : TxnId} (hu : Settled s.contents s u) : Settled s₂.contents s₂ u := by
    refine ⟨Nat.lt_succ_of_lt hu.1, ?_⟩
    rintro ⟨p, hp⟩
    rcases hmem u p hp with hp | ⟨rfl, -⟩
    · exact hu.2 ⟨p, hp⟩
    · exact lt_irrefl _ hu.1
  have htxn {u : TxnId} (hu : u ≠ s.nextTxn) : s₂.txn u = s.txn u := by
    simp [s₂, s₁, TxnState.allocTxn, hu]
  have hbuf {b : BufId} (hb : b ≠ s.nextBuf) : s₂.buf b = s.buf b := by
    simp [s₂, s₁, TxnState.allocTxn, hb]
  have hstack {x : ThreadId} {u : TxnId} (hu : Stackable s.contents s x u) :
      Stackable s₂.contents s₂ x u := by
    refine ⟨Nat.lt_succ_of_lt hu.1, fun U hU hUx => ?_⟩
    rw [htxn hu.1.ne] at hU
    exact (hset ⟨hu.1, hu.2 U hU hUx⟩).2
  have hnew : s₂.txn s.nextTxn = some
      { fromThread := if irt.isNone && !oneWay then some x else none, fromParent := none,
        toProc := some tp, toThread := th, toParent := none, buffer := some s.nextBuf, oneWay } := by
    simp [s₂, s₁, TxnState.allocTxn]
  have hnewB : s₂.buf s.nextBuf = some
      { proc := tp, asyncTransaction := irt.isNone && oneWay, targetNode := n,
        transaction := some s.nextTxn, allowUserFree := false } := by
    simp [s₂, s₁, TxnState.allocTxn]
  have hcalm {x : ThreadId} (hc : Calm s.contents s x) : Calm s₂.contents s₂ x :=
    fun t ht => hset (hc t ht)
  have hold {a' : Actor} {act : Act} (hact' : act ∈ s₂.frames a') :
      act ∈ s.frames a' ∧ s₂.frames a' = s.frames a' ∨
        a' = a ∧ act = .build x s.nextTxn irt th ∧ s₂.frames a' = [act] := by
    rcases eq_or_ne a' a with rfl | hne
    · have hs₂ : s₂.frames a' = [.build x s.nextTxn irt th] := by
        simp only [s₂, TxnState.setFrames_frames, Function.update_self]
      rw [hs₂, List.mem_singleton] at hact'
      exact .inr ⟨rfl, hact', by rw [hs₂, hact']⟩
    · simp only [s₂, TxnState.setFrames_frames, Function.update_of_ne hne] at hact' ⊢
      exact .inl ⟨hact', rfl⟩
  have hlive {u : TxnId} {U : Transaction} {b : BufId} {B : Buffer} (hl : Live L s u U b B) :
      Live L s₂ u U b B :=
    { hl with
      txn := by rw [htxn (h.links.txn_lt hl.txn).ne]; exact hl.txn
      buf := by rw [hbuf (h.links.buf_lt hl.buf).ne]; exact hl.buf }
  exact
    { links := Links.of_same (s := s₁) (.setFrames _) h.links.alloc
      parents := by
        refine ⟨fun ht => hstack (h.parents.stack ht), ?_, ?_⟩
        · intro t T y u ht hy hu
          rcases eq_or_ne t s.nextTxn with rfl | hne
          · rw [hnew] at ht; cases ht; cases hu
          · exact hstack (h.parents.toParent (htxn hne ▸ ht) hy hu)
        · intro t T u ht hu
          rcases eq_or_ne t s.nextTxn with rfl | hne
          · rw [hnew] at ht; cases ht; cases hu
          · exact hset (h.parents.fromParent (htxn hne ▸ ht) hu)
      placed := by
        rw [hcont]
        refine h.placed.grow (a := s.nextTxn) ?_ (List.nodup_singleton _) (by simp)
        rintro ⟨p, hp⟩
        obtain ⟨T, b, B, hl, -⟩ := h.live hp
        exact lt_irrefl _ (h.links.txn_lt hl.txn)
      live := by
        intro u p hu
        rw [hfree]
        rcases hmem u p hu with hu | ⟨rfl, rfl⟩
        · obtain ⟨U, b, B, hl, hf, hat⟩ := h.live hu
          exact ⟨U, b, B, hlive hl, hf, hat⟩
        · refine ⟨_, s.nextBuf, _, ⟨hnew, rfl, hnewB, rfl, rfl, rfl, hth, hown, ?_⟩, ?_, trivial⟩
          · intro ha
            simp only [Bool.and_eq_true, Option.isNone_iff_eq_none] at ha
            exact ⟨ha.2, by rw [hn, ha.1]; rfl⟩
          · exact fun hb => lt_irrefl _ (h.freeing_lt hb)
      freed := hfree ▸ h.freed
      freeing_lt := fun hb => Nat.lt_succ_of_lt (h.freeing_lt (hfree ▸ hb))
      notUser := by
        intro b B hb hB
        rw [hfree] at hb
        rcases eq_or_ne b s.nextBuf with rfl | hne
        · rw [hnewB] at hB; cases hB; rfl
        · exact h.notUser hb (hbuf hne ▸ hB)
      refs := by
        intro a' act t hact' ht
        rcases hold hact' with ⟨hact', -⟩ | ⟨-, rfl, -⟩
        · exact hset (h.refs hact' ht)
        · exact hset (hirt t (by simpa [Act.refs] using ht))
      acts := by
        intro a' act hact'
        rcases hold hact' with ⟨hact', -⟩ | ⟨-, rfl, -⟩
        · refine (h.acts hact').mono (fun x _ _ => hcalm) fun t T b B _ hT _ hB => ?_
          exact ⟨by rw [hbuf (h.links.buf_lt hB).ne]; exact hB, T,
            by rw [htxn (h.links.txn_lt hT).ne]; exact hT, rfl, rfl, rfl, rfl⟩
        · refine ⟨_, _, _, hnew, rfl, hnewB, rfl, hn, fun hi => ⟨(hcall hi).1, by simp [hi], fun ho => ?_⟩⟩
          exact hcalm ((hcall hi).2 ho)
      self := by
        intro a' act y hact' hy
        rcases hold hact' with ⟨hact', -⟩ | ⟨rfl, rfl, -⟩
        · exact h.self hact' hy
        · exact h.self hact hy
      alone := by
        intro a' act hact' hc
        rcases hold hact' with ⟨hact', he⟩ | ⟨-, -, he⟩
        · rw [he]; exact h.alone hact' hc
        · exact he
      owners := h.owners }

omit h in
theorem stack_enqueueThread {w : Work} (z : ThreadId) :
    ((s.enqueueThread y w).thread z).transactionStack = (s.thread z).transactionStack := by
  rcases eq_or_ne z y with rfl | hne
  · simp
  · simp [hne]

omit h in
theorem contents_setFrames_eq (new : List Act) (hfr : s.frames a = act :: rest)
    (hnew : new.filterMap Act.holds = act.holds.toList) :
    (s.setFrames a (new ++ rest)).contents = s.contents := by
  rw [TxnState.contents_setFrames, List.filterMap_append, hnew, ← contents_actor hfr,
    Function.update_eq_self]

omit h in
theorem freeing_setFrames_eq (new : List Act) (hfr : s.frames a = act :: rest)
    (hnew : new.filterMap Act.frees = act.frees.toList) :
    (s.setFrames a (new ++ rest)).freeing = s.freeing := by
  rw [TxnState.freeing_setFrames, List.filterMap_append, hnew, ← freeing_actor hfr,
    Function.update_eq_self]

/-- The target thread of a transaction is a thread of the buffer's process. -/
theorem Inv.build_thread {irt : Option TxnId} (hact : .build x t irt (some y) ∈ s.frames a)
    (hl : Live L s t T b B) : L.procOf y = B.proc := by
  obtain ⟨T', b', B', hT, hb, hB, hth, -⟩ : ActOk L s.contents s (.build x t irt (some y)) :=
    h.acts hact
  obtain ⟨rfl, rfl, rfl⟩ := hl.eq hT hb hB
  exact hl.toThread y hth

/-- A call pushes its transaction on the stack of its own thread. -/
theorem Inv.push {th : Option ThreadId} (hact : .procTransaction x t th ∈ s.frames a)
    (halone : s.frames a = [.procTransaction x t th]) (hl : Live L s t T b B)
    (hx : L.procOf x ≠ B.proc) (hcalm : Calm s.contents s x) :
    Inv L ((s.setTxn t (some { T with fromParent := (s.thread x).transactionStack })).setStack x
      (some t)) := by
  have h₁ : Inv L (s.setTxn t (some { T with fromParent := (s.thread x).transactionStack })) := by
    have hproc : T.toProc = none → T.buffer = none := h.links.toProc hl.txn
    have hpar : ∀ y v, T.toThread = some y → T.toParent = some v → Stackable s.contents s y v :=
      fun _ _ hy hv => h.parents.toParent hl.txn hy hv
    exact h.setTxn hl.txn (.inl rfl) hproc (fun _ => ⟨rfl, rfl, rfl, rfl⟩) hpar hcalm
  refine h₁.setStack ?_ ?_
  · rintro _ ⟨⟩
    refine ⟨h.links.txn_lt hl.txn, fun T' hT' hx' => ?_⟩
    simp only [TxnState.setTxn_txn, Function.update_self, Option.some.injEq] at hT'
    subst hT'
    exact absurd (hl.toThread x hx') hx
  · intro a' act hact' hc hself
    have ha' : a' = a := (h.self hact' hself).trans (h.self hact rfl).symm
    subst ha'
    have hact' : act ∈ s.frames a' := hact'
    rw [halone, List.mem_singleton] at hact'
    rw [hact'] at hc
    cases hc

/-- The end of `binder_transaction` before the transaction is queued. -/
theorem Inv.exec_build {irt : Option TxnId} {th : Option ThreadId}
    (hfr : s.frames a = .build x t irt th :: rest)
    (he : s.execAct L a rest env (.build x t irt th) = some s') : Inv L s' := by
  have hact : Act.build x t irt th ∈ s.frames a := hfr ▸ List.mem_cons_self
  have hirt : ∀ r, irt = some r → Settled s.contents s r := fun r hr =>
    h.refs hact (by simp [Act.refs, hr])
  obtain ⟨T, b, B, hT, hb, hB, hth, -, hcall⟩ : ActOk L s.contents s (.build x t irt th) := h.acts hact
  have hmem : t ∈ s.contents (.actor a) := List.mem_filterMap.mpr ⟨_, hact, rfl⟩
  obtain ⟨T', b', B', hl, -⟩ := h.live hmem
  obtain ⟨rfl, rfl, rfl⟩ := hl.eq hT hb hB
  have hunwind : Inv L (s.setFrames a (.unwind t irt :: rest)) :=
    h.setFrames hfr [.unwind t irt] (by simp [Act.holds]) (by simp [Act.frees])
      (by simpa [Fits, Act.refs, Act.self, Act.calls, ActOk] using fun r hr => .inl (hirt r hr))
  simp only [TxnState.execAct, bind, Option.bind_eq_some_iff] at he
  obtain ⟨T₁, hT₁, he⟩ := he
  rw [hT] at hT₁
  cases hT₁
  split at he
  · cases he; exact hunwind
  split at he
  · rename_i r y
    split at he
    · cases he; exact hunwind
    · obtain ⟨s₁, hpop, he⟩ := Option.bind_eq_some_iff.mp he
      cases he
      have h₁ := h.pop hpop
      obtain ⟨R, hR, -, -, rfl⟩ := pop_eq hpop
      refine h₁.enqueue hfr ⟨?_, ?_, stack_enqueueThread, ?_, ?_⟩ (fun _ _ => id)
        [.freeTransaction r] rfl rfl rfl rfl (by simp [Act.frees]) ?_
        fun _ _ _ hl => h₁.build_thread hact hl
      iterate 4 rfl
      have hr : Settled s.contents s r := hirt r rfl
      simp only [List.mem_singleton, forall_eq]
      exact ⟨fun u hu => .inl (by simpa [Act.refs] using (List.mem_singleton.mp hu) ▸ hr), trivial,
        by simp [Act.self], by simp [Act.calls]⟩
  · cases he
  · obtain ⟨hx, hasync, hcalm⟩ := hcall rfl
    have hproc {th' : Option ThreadId} (hth' : ∀ y, th' = some y → T'.toThread = some y) :
        Inv L (s.setFrames a (.procTransaction x t th' :: rest)) :=
      h.setFrames hfr [.procTransaction x t th'] (by simp [Act.holds]) (by simp [Act.frees])
        (by simpa [Fits, Act.refs, Act.self, Act.calls, ActOk] using ⟨T', hT, b', hb, B', hB, hth', hasync⟩)
    split at he
    · cases he; exact hproc (by simp)
    · rename_i how
      cases he
      have hrest : rest = [] := by
        have := h.alone hact rfl
        rw [hfr, List.cons.injEq] at this
        exact this.2
      subst hrest
      let s₁ := s.setFrames a [.procTransaction x t th]
      have h₁ : Inv L s₁ := hproc fun y hy => hth.trans hy
      have hs₁ : s₁.frames a = [.procTransaction x t th] := by
        simp only [s₁, TxnState.setFrames_frames, Function.update_self]
      have hcont : s₁.contents = s.contents :=
        contents_setFrames_eq [.procTransaction x t th] hfr rfl
      have hcalm₁ : Calm s₁.contents s₁ x := hcont ▸ hcalm (by simpa using how)
      have hl₁ : Live L s₁ t T' b' B' := hl.of_same (.setFrames _)
      exact h₁.push (hs₁ ▸ List.mem_singleton_self _) hs₁ hl₁ hx hcalm₁

end Acts

/-- The two states differ only in the work lists, `process_todo`, the threads that wait (fewer do)
and `has_async_transaction`. -/
structure SameTasks (s s' : TxnState) : Prop extends SameData s s' where
  frames : s'.frames = s.frames
  isDead : s'.isDead = s.isDead
  threadDead : ∀ x, (s'.thread x).isDead = (s.thread x).isDead
  waiting : ∀ q y, y ∈ s'.waitingThreads q → y ∈ s.waitingThreads q
  proc : ∀ m, (s'.node m).proc = (s.node m).proc

theorem SameTasks.refl (s : TxnState) : SameTasks s s :=
  ⟨⟨rfl, rfl, fun _ => rfl, rfl, rfl⟩, rfl, rfl, fun _ => rfl, fun _ _ => id, fun _ => rfl⟩

theorem SameTasks.trans {s₁ s₂ s₃ : TxnState} (h : SameTasks s₁ s₂) (h' : SameTasks s₂ s₃) :
    SameTasks s₁ s₃ where
  txn := h'.txn.trans h.txn
  buf := h'.buf.trans h.buf
  stack x := (h'.stack x).trans (h.stack x)
  nextTxn := h'.nextTxn.trans h.nextTxn
  nextBuf := h'.nextBuf.trans h.nextBuf
  frames := h'.frames.trans h.frames
  isDead := h'.isDead.trans h.isDead
  threadDead x := (h'.threadDead x).trans (h.threadDead x)
  waiting q y hy := h.waiting q y (h'.waiting q y hy)
  proc m := (h'.proc m).trans (h.proc m)

theorem SameTasks.setTodo (l : WorkList) (ws : List Work) : SameTasks s (s.setTodo l ws) :=
  ⟨⟨rfl, rfl, fun _ => rfl, rfl, rfl⟩, rfl, rfl, fun _ => rfl, fun _ _ => id, fun _ => rfl⟩

theorem SameTasks.setProcessTodo (x : ThreadId) (v : Bool) :
    SameTasks s (s.setThread x { s.thread x with processTodo := v }) := by
  refine ⟨⟨rfl, rfl, fun y => ?_, rfl, rfl⟩, rfl, rfl, fun y => ?_, fun _ _ => id, fun _ => rfl⟩
  all_goals
    rcases eq_or_ne y x with rfl | hne
    · simp
    · simp [hne]

theorem SameTasks.setAsync (n : NodeId) (v : Bool) :
    SameTasks s (s.setNode n { s.node n with hasAsyncTransaction := v }) := by
  refine ⟨⟨rfl, rfl, fun y => rfl, rfl, rfl⟩, rfl, rfl, fun y => rfl, fun _ _ => id, fun m => ?_⟩
  rcases eq_or_ne m n with rfl | hne
  · simp
  · simp [hne]

theorem SameTasks.enqueueThread (y : ThreadId) (w : Work) : SameTasks s (s.enqueueThread y w) :=
  (SameTasks.setTodo (.thread y) (s.todo (.thread y) ++ [w])).trans (.setProcessTodo y true)

theorem selectThread_spec (p : ProcId) : SameTasks s (s.selectThread p).2 ∧
    (s.selectThread p).2.todo = s.todo ∧ (s.selectThread p).2.node = s.node ∧
    ∀ y, (s.selectThread p).1 = some y → y ∈ s.waitingThreads p := by
  simp only [TxnState.selectThread]
  split
  · exact ⟨.refl s, rfl, rfl, by simp⟩
  · rename_i y ys hw
    refine ⟨⟨⟨rfl, rfl, fun _ => rfl, rfl, rfl⟩, rfl, rfl, fun _ => rfl, fun q z hz => ?_,
      fun _ => rfl⟩, rfl, rfl, by simp [hw]⟩
    rcases eq_or_ne q p with rfl | hne
    · rw [hw]; exact List.mem_cons_of_mem _ (by simpa using hz)
    · simpa [hne] using hz

/-- What `binder_proc_transaction` does: it fails and only sets the flag, or it puts the
transaction at the end of one list. -/
theorem binderProcTransaction_spec {oneWay ok : Bool} {n : NodeId} {p : ProcId}
    {th : Option ThreadId} (he : s.binderProcTransaction t oneWay n p th = some (ok, s')) :
    SameTasks s s' ∧
      (∀ m, (s'.node m).hasAsyncTransaction =
        ((s.node m).hasAsyncTransaction || (oneWay && decide (m = n)))) ∧
      if ok then s.isDead p = false ∧
        ∃ l, s'.todo = Function.update s.todo l (s.todo l ++ [.transaction t]) ∧
        (l = .proc p ∨
          (∃ y, l = .thread y ∧ (th = some y ∧ (s.thread y).isDead = false ∨
            y ∈ s.waitingThreads p)) ∨
          l = .node n ∧ oneWay = true ∧ (s.node n).hasAsyncTransaction = true)
      else s'.todo = s.todo ∧ (oneWay = true → s.isDead p = true) := by
  simp only [TxnState.binderProcTransaction, bind, Option.bind_eq_some_iff, Option.guard_eq_some',
    exists_const] at he
  obtain ⟨hg, he⟩ := he
  -- The state after the flag is set.
  obtain ⟨s₁, hs₁⟩ : ∃ s₁, s₁ =
    if oneWay then s.setNode n { s.node n with hasAsyncTransaction := true } else s := ⟨_, rfl⟩
  rw [← hs₁] at he
  have h₁ : SameTasks s s₁ ∧ s₁.todo = s.todo ∧ ∀ m, (s₁.node m).hasAsyncTransaction =
      ((s.node m).hasAsyncTransaction || (oneWay && decide (m = n))) := by
    rw [hs₁]
    split
    · rename_i how
      refine ⟨.setAsync n true, rfl, fun m => ?_⟩
      rcases eq_or_ne m n with rfl | hne
      · simp [how]
      · simp [hne]
    · rename_i how
      exact ⟨.refl s, rfl, by simp [how]⟩
  obtain ⟨hst, htodo, hasync⟩ := h₁
  split at he
  · rename_i hdead
    simp only [Option.some.injEq, Prod.mk.injEq] at he
    obtain ⟨rfl, rfl⟩ := he
    refine ⟨hst, hasync, htodo, fun how => ?_⟩
    have hth : th = none := by simpa [how] using hg
    simpa [hth, hst.isDead] using hdead
  rename_i hdead
  simp only [Bool.or_eq_true, not_or, Bool.not_eq_true, hst.isDead] at hdead
  -- The thread that gets the transaction, if one does.
  obtain ⟨r, hr⟩ : ∃ r, r = if th.isNone && !(oneWay && (s.node n).hasAsyncTransaction) then
    s₁.selectThread p else (th, s₁) := ⟨_, rfl⟩
  rw [← hr] at he
  have h₂ : SameTasks s₁ r.2 ∧ r.2.todo = s₁.todo ∧ r.2.node = s₁.node ∧ ∀ y, r.1 = some y →
      th = some y ∨ y ∈ s₁.waitingThreads p := by
    rw [hr]
    split
    · obtain ⟨e₁, e₂, e₃, e₄⟩ := selectThread_spec (s := s₁) p
      exact ⟨e₁, e₂, e₃, fun y hy => .inr (e₄ y hy)⟩
    · exact ⟨.refl s₁, rfl, rfl, fun y hy => .inl hy⟩
  obtain ⟨hst₂, htodo₂, hnode₂, hy₂⟩ := h₂
  split at he
  · rename_i y hy
    simp only [Option.some.injEq, Prod.mk.injEq] at he
    obtain ⟨rfl, rfl⟩ := he
    refine ⟨hst.trans (hst₂.trans (.enqueueThread y _)), fun m => ?_, hdead.1, .thread y, ?_,
      .inr (.inl ⟨y, rfl, ?_⟩)⟩
    · rw [← hasync m, ← hnode₂]; rfl
    · rw [← htodo, ← htodo₂]; rfl
    · rcases hy₂ y hy with hy | hy
      · refine .inl ⟨hy, ?_⟩
        have := hdead.2
        rw [hy] at this
        rw [← hst.threadDead]
        simpa using this
      · exact .inr (hst.waiting p y hy)
  · simp only [Option.some.injEq, Prod.mk.injEq] at he
    obtain ⟨rfl, rfl⟩ := he
    refine ⟨hst.trans (hst₂.trans (.setTodo _ _)), fun m => ?_, hdead.1,
      if oneWay && (s.node n).hasAsyncTransaction then .node n else .proc p, ?_, ?_⟩
    · rw [← hasync m, ← hnode₂]; rfl
    · rw [← htodo, ← htodo₂]; rfl
    · split
      · rename_i hp
        rw [Bool.and_eq_true] at hp
        exact .inr (.inr ⟨rfl, hp⟩)
      · exact .inl rfl

section Acts

variable (h : Inv L s)
include h

theorem Inv.exec_procTransaction {th : Option ThreadId}
    (hw : ∀ p y, y ∈ s.waitingThreads p → L.procOf y = p)
    (hfr : s.frames a = .procTransaction x t th :: rest)
    (he : s.execAct L a rest env (.procTransaction x t th) = some s') : Inv L s' := by
  have hact : Act.procTransaction x t th ∈ s.frames a := hfr ▸ List.mem_cons_self
  obtain ⟨T, b, B, hT, hb, hB, hth, hasync⟩ : ActOk L s.contents s (.procTransaction x t th) :=
    h.acts hact
  simp only [TxnState.execAct, bind, Option.bind_eq_some_iff] at he
  obtain ⟨T₁, hT₁, b₁, hb₁, B₁, hB₁, n, hn, ⟨ok, s₁⟩, hpt, he⟩ := he
  rw [hT] at hT₁; cases hT₁
  rw [hb] at hb₁; cases hb₁
  rw [hB] at hB₁; cases hB₁
  obtain ⟨hst, -, hspec⟩ := binderProcTransaction_spec hpt
  have hd {acts : List Act} : SameData s (s₁.setFrames a acts) :=
    ⟨hst.txn, hst.buf, hst.stack, hst.nextTxn, hst.nextBuf⟩
  have hfr' (acts : List Act) : (s₁.setFrames a acts).frames = Function.update s.frames a acts := by
    rw [TxnState.setFrames_frames, hst.frames]
  have hnode {acts : List Act} : ∀ m p, ((s₁.setFrames a acts).node m).proc = some p →
      (s.node m).proc = some p := fun m p hp => (hst.proc m).symm.trans hp
  cases ok with
  | true =>
    obtain ⟨-, l, htodo, hl⟩ := hspec
    cases he
    refine h.enqueue hfr hd hnode [] htodo (hfr' _) rfl rfl (List.nil_sublist _) (by simp) ?_
    intro T' b' B' hlive
    obtain ⟨rfl, rfl, rfl⟩ := hlive.eq hT hb hB
    rcases hl with rfl | ⟨y, rfl, hy⟩ | ⟨rfl, how, -⟩
    · rfl
    · rcases hy with ⟨hy, -⟩ | hy
      · exact hlive.toThread y (hth y hy)
      · exact hw _ y hy
    · exact ⟨hasync.trans how, hn⟩
  | false =>
    have htodo : s₁.todo = s.todo := hspec.1
    simp only at he
    split at he
    · cases he
      refine h.next hfr [.unwind t none] hd (fun l => by rw [TxnState.setFrames_todo, htodo]) (hfr' _)
        (.refl _) hnode (by simp [Act.holds]) (by simp [Act.frees]) ?_
      simp [Fits, Act.refs, Act.self, Act.calls, ActOk]
    · cases he
      refine h.next hfr [.popTransaction x t, .unwind t none] hd
        (fun l => by rw [TxnState.setFrames_todo, htodo]) (hfr' _) (.refl _) hnode (.refl [t])
        (by simp [Act.frees]) ?_
      simp [Fits, Act.refs, Act.self, Act.calls, ActOk]

theorem Inv.exec_popTransaction (hfr : s.frames a = .popTransaction x t :: rest)
    (he : s.execAct L a rest env (.popTransaction x t) = some s') : Inv L s' := by
  obtain ⟨s₁, hpop, he⟩ := Option.bind_eq_some_iff.mp he
  cases he
  have h₁ := h.pop hpop
  obtain ⟨T, -, -, -, rfl⟩ := pop_eq hpop
  exact h₁.pass hfr

/-- A transaction that its task gives up is at no place. -/
theorem Inv.not_onList (hfr : s.frames a = act :: rest) (ht : act.holds = some t)
    {rest' : List Act} (hrest : rest'.Sublist rest) (hn : new.filterMap Act.holds = []) :
    ¬ OnList (s.setFrames a (new ++ rest')).contents t := by
  have hmem : t ∈ s.contents (.actor a) := by
    rw [contents_actor hfr, ht]; exact List.mem_cons_self
  rw [TxnState.contents_setFrames, List.filterMap_append, hn]
  exact h.placed.not_onList hmem fun hr =>
    h.holds_not_rest hfr ht ((hrest.filterMap _).subset hr)

theorem Inv.exec_unwind {irt : Option TxnId} (hfr : s.frames a = .unwind t irt :: rest)
    (he : s.execAct L a rest env (.unwind t irt) = some s') : Inv L s' := by
  simp only [TxnState.execAct, bind, Option.bind_eq_some_iff] at he
  obtain ⟨T, hT, b, hb, he⟩ := he
  cases he
  -- First the task gives up `t`; then the buffer and the transaction can go.
  have hirt : ∀ r, irt = some r → Settled s.contents s r := fun r hr =>
    h.refs (hfr ▸ List.mem_cons_self) (by simp [Act.refs, hr])
  have h₁ := h.onError hfr hirt
  have hon : ¬ OnList (s.setFrames a (TxnState.onError irt ++ rest)).contents t :=
    h.not_onList hfr rfl (.refl _) (by cases irt <;> rfl)
  have hmem : t ∈ s.contents (.actor a) := by
    rw [contents_actor hfr]; exact List.mem_cons_self
  obtain ⟨T', b', B, hl, -⟩ := h.live hmem
  obtain ⟨rfl, rfl⟩ : T' = T ∧ b' = b := by
    have h₁ := hl.txn
    rw [hT] at h₁; cases h₁
    have h₂ := hl.buffer
    rw [hb] at h₂; cases h₂
    exact ⟨rfl, rfl⟩
  have h₂ : Inv L ((s.setFrames a (TxnState.onError irt ++ rest)).setBuf b' none) :=
    h₁.setBuf hl.buf (by simp) (fun u U B₁ hu => h₁.not_live_of_buffer hT hb hon hu U B₁) (by simp)
  exact h₂.freeTxn hon (h.links.unlinked hT hb (by simp))

/-! ## The acts that take a transaction apart -/

theorem Inv.exec_sendFailedReply (hfr : s.frames a = .sendFailedReply t :: rest)
    (he : s.execAct L a rest env (.sendFailedReply t) = some s') : Inv L s' := by
  have hset : Settled s.contents s t := h.refs (hfr ▸ List.mem_cons_self) (by simp [Act.refs])
  simp only [TxnState.execAct, bind, Option.bind_eq_some_iff] at he
  obtain ⟨T, hT, he⟩ := he
  split at he
  · rename_i y _
    obtain ⟨s₁, hpop, he⟩ := Option.bind_eq_some_iff.mp he
    cases he
    have h₁ := h.pop hpop
    obtain ⟨T', -, -, -, rfl⟩ := pop_eq hpop
    let s₁ := (s.setTxn t (some { T' with fromThread := none })).setStack y T'.fromParent
    have hfit : ∀ act' ∈ [Act.freeTransaction t], Fits L s₁ (.sendFailedReply t) [.freeTransaction t]
        (fun u => (Act.sendFailedReply t).holds = some u ∧
          [Act.freeTransaction t].filterMap Act.holds = []) act' := by
      simp only [List.mem_singleton, forall_eq]
      exact ⟨by simpa [Act.refs] using .inl hset, trivial, by simp [Act.self], by simp [Act.calls]⟩
    split
    · have hst : SameTasks s₁ (s₁.enqueueThread y (.other .returnError)) := .enqueueThread _ _
      exact h₁.next hfr [.freeTransaction t] ⟨rfl, rfl, hst.stack, rfl, rfl⟩
        (fun l => filterMap_enqueue_other l) rfl (.refl _) (fun _ _ => id) (by simp [Act.holds])
        (by simp [Act.frees]) hfit
    · exact h₁.setFrames hfr [.freeTransaction t] (by simp [Act.holds]) (by simp [Act.frees]) hfit
  · cases he
    have hpar : ∀ u, T.fromParent = some u → Settled s.contents s u := fun u hu =>
      h.parents.fromParent hT hu
    cases hp : T.fromParent with
    | none =>
      exact h.setFrames hfr [.freeTransaction t] (by simp [Act.holds]) (by simp [Act.frees])
        (by simp [Fits, Act.refs, Act.self, Act.calls, ActOk, hset])
    | some u =>
      exact h.setFrames hfr [.freeTransaction t, .sendFailedReply u] (List.nil_sublist _)
        (List.nil_sublist _)
        (by simp [Fits, Act.refs, Act.self, Act.calls, ActOk, hset, hpar u hp])

theorem Inv.exec_freeTransaction (hfr : s.frames a = .freeTransaction t :: rest)
    (he : s.execAct L a rest env (.freeTransaction t) = some s') : Inv L s' := by
  have hset : Settled s.contents s t := h.refs (hfr ▸ List.mem_cons_self) (by simp [Act.refs])
  simp only [TxnState.execAct, bind, Option.bind_eq_some_iff] at he
  obtain ⟨T, hT, he⟩ := he
  split at he
  · rename_i p b hp hb
    obtain ⟨s₁, hs₁, he⟩ := Option.bind_eq_some_iff.mp he
    cases he
    have h₁ := h.unlink hs₁ fun u U B hu => h.not_live_of_buffer hT hb hset.2 hu U B
    obtain ⟨B, hB, he⟩ := Option.bind_eq_some_iff.mp hs₁
    cases he
    exact (h₁.freeTxn hset.2 (h.links.unlinked hT hb (by rintro _ ⟨⟩; rfl))).pass hfr
  · rename_i hno
    cases he
    refine (h.freeTxn hset.2 ?_).pass hfr
    intro b B hB ht
    obtain ⟨T', hT', hb⟩ := h.links.link hB ht
    rw [hT] at hT'; cases hT'
    cases hp : T.toProc with
    | none => rw [h.links.toProc hT hp] at hb; cases hb
    | some p => exact hno p b hp hb

theorem Inv.exec_cleanupTransaction (hfr : s.frames a = .cleanupTransaction t :: rest)
    (he : s.execAct L a rest env (.cleanupTransaction t) = some s') : Inv L s' := by
  have hset : Settled s.contents s t := h.refs (hfr ▸ List.mem_cons_self) (by simp [Act.refs])
  simp only [TxnState.execAct, bind, Option.bind_eq_some_iff] at he
  obtain ⟨T, hT, b, hb, B, hB, he⟩ := he
  split at he <;> cases he
  · exact h.setFrames hfr [.sendFailedReply t] (by simp [Act.holds]) (by simp [Act.frees])
      (by simp [Fits, Act.refs, Act.self, Act.calls, ActOk, hset])
  · exact h.setFrames hfr [.freeTransaction t] (by simp [Act.holds]) (by simp [Act.frees])
      (by simp [Fits, Act.refs, Act.self, Act.calls, ActOk, hset])

/-! ## The acts of `binder_free_buf` -/

theorem Inv.exec_freeBuf (hfr : s.frames a = .freeBuf b :: rest)
    (he : s.execAct L a rest env (.freeBuf b) = some s') : Inv L s' := by
  have hb : OnList s.freeing b := ⟨a, by rw [freeing_actor hfr]; exact List.mem_cons_self⟩
  have hnext {s : TxnState} (h : Inv L s) (hfr : s.frames a = .freeBuf b :: rest) :
      Inv L (s.setFrames a (.freeBufAsync b :: rest)) :=
    h.setFrames hfr [.freeBufAsync b] (by simp [Act.holds]) (by simp [Act.frees])
      (by simp [Fits, Act.refs, Act.self, Act.calls, ActOk])
  simp only [TxnState.execAct, bind, Option.bind_eq_some_iff] at he
  obtain ⟨B, hB, he⟩ := he
  split at he
  · cases he; exact hnext h hfr
  · rename_i t ht
    obtain ⟨T, hT, he⟩ := Option.bind_eq_some_iff.mp he
    obtain ⟨s₁, hs₁, he⟩ := Option.bind_eq_some_iff.mp he
    cases he
    obtain ⟨B', hB', hs₁⟩ := Option.bind_eq_some_iff.mp hs₁
    have hBB : B' = B := by
      rw [TxnState.setTxn_buf, hB] at hB'; exact (Option.some.inj hB').symm
    subst hBB
    cases hs₁
    obtain ⟨T', hT', hTb⟩ := h.links.link hB ht
    rw [hT] at hT'; cases hT'
    have hnl : ∀ u U B, OnList s.contents u → ¬ Live L s u U b B :=
      fun u U B hu => h.not_live_of_freeing hb hu U B
    have hset : ¬ OnList s.contents t := fun hon => by
      obtain ⟨p, hp⟩ := hon
      obtain ⟨T₁, b₁, B₁, hl, hf, -⟩ := h.live hp
      have h₁ := hl.txn
      rw [hT] at h₁; cases h₁
      have h₂ := hl.buffer
      rw [hTb] at h₂; cases h₂
      exact hf hb
    have h₁ : Inv L (s.setBuf b (some { B' with transaction := none })) :=
      h.setBuf hB (by rintro _ ⟨⟩; exact .inr rfl) hnl
        (by rintro hf _ ⟨⟩; exact h.notUser (B := B') hf hB)
    have hpar : ∀ x v, T.toThread = some x → T.toParent = some v → Stackable s.contents s x v :=
      fun _ _ hx hv => h.parents.toParent hT hx hv
    have hfrom : ∀ v, T.fromParent = some v → Settled s.contents s v :=
      fun _ hv => h.parents.fromParent hT hv
    have h₂ : Inv L ((s.setBuf b (some { B' with transaction := none })).setTxn t
        (some { T with buffer := none })) :=
      h₁.setTxn hT (.inr ⟨rfl, h.links.unlinked hT hTb (by rintro _ ⟨⟩; rfl)⟩) (fun _ => rfl)
        (fun hon => absurd hon hset) hpar hfrom
    exact hnext h₂ hfr

theorem Inv.exec_freeBufRelease (hfr : s.frames a = .freeBufRelease b :: rest)
    (he : s.execAct L a rest env (.freeBufRelease b) = some s') : Inv L s' := by
  have hb : OnList s.freeing b := ⟨a, by rw [freeing_actor hfr]; exact List.mem_cons_self⟩
  simp only [TxnState.execAct, bind, Option.bind_eq_some_iff, Option.guard_eq_some', exists_const]
    at he
  obtain ⟨B, hB, -, he⟩ := he
  cases he
  have h₁ : Inv L (s.setBuf b none) :=
    h.setBuf hB (by simp) (fun u U B hu => h.not_live_of_freeing hb hu U B) (by simp)
  exact h₁.pass hfr

theorem Inv.exec_freeBufAsync
    (hasync : ∀ n w, w ∈ s.todo (.node n) → ∃ t, w = .transaction t)
    (hfr : s.frames a = .freeBufAsync b :: rest)
    (he : s.execAct L a rest env (.freeBufAsync b) = some s') : Inv L s' := by
  simp only [TxnState.execAct, bind, Option.bind_eq_some_iff] at he
  obtain ⟨B, hB, he⟩ := he
  have hnew : ∀ act' ∈ [Act.freeBufRelease b], Fits L s (.freeBufAsync b) [.freeBufRelease b]
      (fun t => (Act.freeBufAsync b).holds = some t ∧
        [Act.freeBufRelease b].filterMap Act.holds = []) act' := by
    simp [Fits, Act.refs, Act.self, Act.calls, ActOk]
  split at he
  · rename_i n hasy htn
    simp only [Option.bind_eq_some_iff, Option.guard_eq_some', exists_const] at he
    obtain ⟨-, hproc, he⟩ := he
    split at he
    · cases he
      have hst : SameTasks s (s.setNode n { s.node n with hasAsyncTransaction := false }) :=
        .setAsync n false
      exact h.next hfr [.freeBufRelease b] ⟨hst.txn, hst.buf, hst.stack, hst.nextTxn, hst.nextBuf⟩
        (fun _ => rfl) rfl (.refl _) (fun m p hp => (hst.proc m).symm.trans hp) (by simp [Act.holds])
        (by simp [Act.frees]) hnew
    · rename_i w ws hw
      obtain ⟨t, rfl⟩ := hasync n w (hw ▸ List.mem_cons_self)
      cases he
      let s₁ := (s.setTodo (.node n) ws).enqueue (.proc B.proc) (.transaction t)
      obtain ⟨hst, htodo, -, -⟩ := selectThread_spec (s := s₁) B.proc
      have hst : SameTasks s (s₁.selectThread B.proc).2 :=
        ((SameTasks.setTodo (.node n) ws).trans (.setTodo _ _)).trans hst
      refine h.requeue hfr ⟨hst.txn, hst.buf, hst.stack, hst.nextTxn, hst.nextBuf⟩
        (fun m p hp => (hst.proc m).symm.trans hp) [.freeBufRelease b] hw
        (q := .proc B.proc) (by simp) ?_ ?_ rfl (by simp [Act.frees]) ?_ ?_
      · rw [TxnState.setFrames_todo, htodo]
        simp [s₁]
      · rw [TxnState.setFrames_frames, hst.frames]; rfl
      · simp [Fits, Act.refs, Act.self, Act.calls, ActOk]
      · intro T b' B' hl hat
        exact (h.owners hproc).symm.trans (hl.owner n hat.2)
  · cases he
    exact h.setFrames hfr [.freeBufRelease b] (by simp [Act.holds]) (by simp [Act.frees]) hnew

/-! ## The acts of `binder_thread_read` -/

theorem Inv.exec_readRetry (hfr : s.frames a = .readRetry x :: rest)
    (he : s.execAct L a rest env (.readRetry x) = some s') : Inv L s' := by
  cases he
  exact h.setFrames hfr [.wait x _] (by simp [Act.holds]) (by simp [Act.frees])
    (by simp [Fits, Act.refs, Act.self, Act.calls, ActOk])

theorem Inv.exec_wait {procWork : Bool} (hfr : s.frames a = .wait x procWork :: rest)
    (he : s.execAct L a rest env (.wait x procWork) = some s') : Inv L s' := by
  simp only [TxnState.execAct] at he
  split at he
  · cases he
    exact h.setFrames hfr [.read x procWork] (by simp [Act.holds]) (by simp [Act.frees])
      (by simp [Fits, Act.refs, Act.self, Act.calls, ActOk])
  split at he
  · cases he; exact h.pass hfr
  · cases he
    have hfit : ∀ act' ∈ [Act.sleep x procWork], Fits L s (.wait x procWork) [.sleep x procWork]
        (fun t => (Act.wait x procWork).holds = some t ∧
          [Act.sleep x procWork].filterMap Act.holds = []) act' := by
      simp [Fits, Act.refs, Act.self, Act.calls, ActOk]
    split
    · exact h.next hfr [.sleep x procWork] ⟨rfl, rfl, fun _ => rfl, rfl, rfl⟩ (fun _ => rfl) rfl
        (.refl _) (fun _ _ => id) (by simp [Act.holds]) (by simp [Act.frees]) hfit
    · exact h.setFrames hfr [.sleep x procWork] (by simp [Act.holds]) (by simp [Act.frees]) hfit

theorem Inv.exec_sleep {procWork : Bool} (hfr : s.frames a = .sleep x procWork :: rest)
    (he : s.execAct L a rest env (.sleep x procWork) = some s') : Inv L s' := by
  cases he
  by_cases hok : env.ok
  · simp only [hok]
    refine h.next hfr [.wait x procWork] ⟨rfl, rfl, fun _ => rfl, rfl, rfl⟩ (fun _ => rfl) rfl
      (.refl _) (fun _ _ => id) (by simp [Act.holds]) (by simp [Act.frees]) ?_
    simp [Fits, Act.refs, Act.self, Act.calls, ActOk]
  · simp only [hok]
    exact h.next hfr [] ⟨rfl, rfl, fun _ => rfl, rfl, rfl⟩ (fun _ => rfl) rfl
      (.refl _) (fun _ _ => id) (by simp) (by simp) (by simp)

theorem Inv.exec_read {procWork : Bool} (hfr : s.frames a = .read x procWork :: rest)
    (he : s.execAct L a rest env (.read x procWork) = some s') : Inv L s' := by
  have hend : Inv L (s.setFrames a (if env.retry then .readRetry x :: rest else rest)) := by
    split
    · exact h.setFrames hfr [.readRetry x] (by simp [Act.holds]) (by simp [Act.frees])
        (by simp [Fits, Act.refs, Act.self, Act.calls, ActOk])
    · exact h.pass hfr
  simp only [TxnState.execAct] at he
  generalize hl : (if (s.todo (.thread x)).isEmpty then WorkList.proc (L.procOf x)
    else .thread x) = l at he
  split at he
  · cases he; exact hend
  rename_i w ws hw
  split at he
  · cases he; exact hend
  split at he
  · cases he; exact h.pass hfr
  have hst (v : Bool) : SameTasks s ((s.setTodo l ws).setThread x
      { (s.setTodo l ws).thread x with processTodo := v }) :=
    (SameTasks.setTodo l ws).trans (.setProcessTodo x v)
  split at he
  · rename_i t
    cases he
    exact h.dequeue hfr ⟨rfl, rfl, (hst _).stack, rfl, rfl⟩ (fun _ _ => id)
      [.deliver x t, .read x procWork] hw rfl rfl rfl (.refl _)
      (by simp [Act.frees]) (by simp [Fits, Act.refs, Act.self, Act.calls, ActOk])
  · cases he
    have htodo : ∀ l', (Function.update s.todo l ws l').filterMap Work.txn? =
        (s.todo l').filterMap Work.txn? := by
      intro l'
      rcases eq_or_ne l' l with rfl | hne
      · rw [Function.update_self, hw]; rfl
      · rw [Function.update_of_ne hne]
    by_cases hok : env.ok
    · simp only [hok]
      exact h.next hfr [.read x procWork] ⟨rfl, rfl, (hst _).stack, rfl, rfl⟩ htodo rfl (.refl _)
        (fun _ _ => id) (by simp [Act.holds]) (by simp [Act.frees])
        (by simp [Fits, Act.refs, Act.self, Act.calls, ActOk])
    · simp only [hok]
      exact h.next hfr [] ⟨rfl, rfl, (hst _).stack, rfl, rfl⟩ htodo rfl (.refl _)
        (fun _ _ => id) (by simp) (by simp) (by simp)

/-- A task that is in no call starts to free a buffer of no transaction on its way. -/
theorem Inv.addFree (before after : List Act) (hfr : s.frames a = before ++ after)
    (hcalls : ∀ act ∈ before ++ after, act.calls = false) (hB : s.buf b = some B)
    (hu : B.allowUserFree = false) (hnf : ¬ OnList s.freeing b)
    (hnl : ∀ u U B, OnList s.contents u → ¬ Live L s u U b B) :
    Inv L (s.setFrames a (before ++ .freeBuf b :: after)) := by
  have hcont : (s.setFrames a (before ++ .freeBuf b :: after)).contents = s.contents := by
    rw [TxnState.contents_setFrames]
    refine Function.update_eq_self_iff.mpr ?_
    simp only [TxnState.contents, hfr, List.filterMap_append]
    rfl
  have hfree : (s.setFrames a (before ++ .freeBuf b :: after)).freeing = Function.update s.freeing a
      (before.filterMap Act.frees ++ b :: after.filterMap Act.frees) := by
    rw [TxnState.freeing_setFrames, List.filterMap_append]
    rfl
  have hold : s.freeing a = before.filterMap Act.frees ++ after.filterMap Act.frees := by
    simp only [TxnState.freeing, hfr, List.filterMap_append]
  have hmid {α : Type} {c d : α} {l l' : List α} (hc : c ∈ l ++ d :: l') : c = d ∨ c ∈ l ++ l' := by
    rcases List.mem_append.mp hc with hc | hc
    · exact .inr (List.mem_append_left _ hc)
    · rcases List.mem_cons.mp hc with hc | hc
      · exact .inl hc
      · exact .inr (List.mem_append_right _ hc)
  refine h.control (.setFrames _) (hcont ▸ h.placed) ?_ ?_ ?_ ?_ (fun _ _ => id)
  · intro t p ht
    exact ⟨p, hcont ▸ ht, fun _ _ _ _ => id⟩
  · rw [hfree]
    refine h.freed.grow hnf ?_ ?_
    · refine (List.perm_middle.nodup_iff).mpr (List.nodup_cons.mpr ⟨fun hb => hnf ⟨a, hold ▸ hb⟩, ?_⟩)
      rw [← hold]; exact h.freed.nodup a
    · intro b' hb'
      rw [hold]
      exact hmid hb'
  · rintro b' ⟨a', hb'⟩
    rw [hfree] at hb'
    rcases eq_or_ne a' a with rfl | hne
    · rw [Function.update_self] at hb'
      rcases hmid hb' with rfl | hb'
      · refine .inr ⟨⟨B, hB, hu⟩, fun t T B' ht => ?_⟩
        exact hnl t T B' (hcont ▸ ht)
      · exact .inl ⟨a', hold ▸ hb'⟩
    · rw [Function.update_of_ne hne] at hb'
      exact .inl ⟨a', hb'⟩
  · intro a' act hact
    rcases eq_or_ne a' a with rfl | hne
    · rw [TxnState.setFrames_frames, Function.update_self] at hact
      rcases hmid hact with rfl | hact
      · exact .inr ⟨by simp [Act.refs], trivial, by simp [Act.self], by simp [Act.calls]⟩
      · exact .inr (h.good (fun t ht => hcont ▸ ht) (hfr ▸ hact) (hcalls act hact) _)
    · exact .inl (by rw [TxnState.setFrames_frames, Function.update_of_ne hne])

theorem Inv.exec_deliver (hfr : s.frames a = .deliver x t :: rest)
    (he : s.execAct L a rest env (.deliver x t) = some s') : Inv L s' := by
  simp only [TxnState.execAct, bind, Option.bind_eq_some_iff] at he
  obtain ⟨T, hT, b, hb, B, hB, he⟩ := he
  split at he
  · cases he
    exact h.next hfr [.copy x t] (.setFrames _) (fun _ => rfl) rfl (List.nil_sublist _)
      (fun _ _ => id) (by simp [Act.holds]) (by simp [Act.frees])
      (by simp [Fits, Act.refs, Act.self, Act.calls, ActOk])
  · obtain ⟨s₁, hs₁, he⟩ := Option.bind_eq_some_iff.mp he
    obtain ⟨B', hB', hs₁⟩ := Option.bind_eq_some_iff.mp hs₁
    rw [hB] at hB'; cases hB'
    cases hs₁
    cases he
    have hmem : t ∈ s.contents (.actor a) := by
      rw [contents_actor hfr]; exact List.mem_cons_self
    obtain ⟨T', b', B', hl, hf, -⟩ := h.live hmem
    obtain ⟨rfl, rfl, rfl⟩ := hl.eq hT hb hB
    obtain ⟨rest', hr'⟩ : ∃ r, r = if B'.targetNode.isNone then [] else rest := ⟨_, rfl⟩
    have hrest : rest'.Sublist rest := by rw [hr']; split <;> simp
    rw [← hr']
    -- The task gives up `t`, then it takes on the buffer, then the link goes.
    let s₁ := s.setFrames a ([.cleanupTransaction t] ++ rest')
    have h₁ : Inv L s₁ :=
      h.next hfr [.cleanupTransaction t] (.setFrames _) (fun _ => rfl) rfl hrest (fun _ _ => id)
        (List.nil_sublist _) (by simp [Act.frees])
        (by simp [Fits, Act.refs, Act.self, Act.calls, ActOk, Act.holds])
    have hon : ¬ OnList s₁.contents t := h.not_onList hfr rfl hrest rfl
    have hnl : ∀ u U B, OnList s₁.contents u → ¬ Live L s₁ u U b' B := fun u U B hu =>
      h₁.not_live_of_buffer (s := s₁) hT hb hon hu U B
    have hs₁ : s₁.frames a = [.cleanupTransaction t] ++ rest' := by
      simp only [s₁, TxnState.setFrames_frames, Function.update_self]
    have hnf : ¬ OnList s₁.freeing b' := by
      rintro ⟨a', ha'⟩
      refine hf ⟨a', ?_⟩
      simp only [s₁, TxnState.freeing_setFrames] at ha'
      rcases eq_or_ne a' a with rfl | hne
      · rw [Function.update_self] at ha'
        rw [freeing_actor hfr]
        exact (hrest.filterMap _).subset ha'
      · rwa [Function.update_of_ne hne] at ha'
    have h₂ := h₁.addFree _ _ hs₁ (by
      intro act hact
      rcases List.mem_append.mp hact with hact | hact
      · rw [List.mem_singleton.mp hact]; rfl
      · exact h.rest_calls hfr act (hrest.subset hact)) hB hl.allowUserFree hnf hnl
    have hs₂ : s₁.setFrames a ([.cleanupTransaction t] ++ .freeBuf b' :: rest') =
        s.setFrames a (.cleanupTransaction t :: .freeBuf b' :: rest') := by
      simp [s₁, TxnState.setFrames]
    rw [hs₂] at h₂
    have hcont : (s.setFrames a (.cleanupTransaction t :: .freeBuf b' :: rest')).contents =
        s₁.contents := by
      simp only [s₁, TxnState.contents_setFrames]; rfl
    refine h₂.setBuf hB (by rintro _ ⟨⟩; exact .inr rfl) (fun u U B hu => ?_) ?_
    · exact fun hl => hnl u U B (hcont ▸ hu) { hl with txn := hl.txn, buf := hl.buf }
    · rintro - _ ⟨⟩; exact hl.allowUserFree

theorem Inv.exec_copy (hfr : s.frames a = .copy x t :: rest)
    (he : s.execAct L a rest env (.copy x t) = some s') : Inv L s' := by
  simp only [TxnState.execAct, bind, Option.bind_eq_some_iff] at he
  obtain ⟨T, hT, b, hb, B, hB, he⟩ := he
  split at he
  · cases he
    have hmem : t ∈ s.contents (.actor a) := by
      rw [contents_actor hfr]; exact List.mem_cons_self
    obtain ⟨T', b', B', hl, hf, -⟩ := h.live hmem
    obtain ⟨rfl, rfl, rfl⟩ := hl.eq hT hb hB
    let acts := [.delivered x t B'.targetNode.isNone] ++ rest
    have h₁ : Inv L (s.setFrames a acts) :=
      h.setFrames hfr [.delivered x t B'.targetNode.isNone] (List.nil_sublist _) (by simp [Act.frees])
        (by simp [Fits, Act.refs, Act.self, Act.calls, ActOk, Act.holds])
    have hon : ¬ OnList (s.setFrames a acts).contents t := h.not_onList hfr rfl (.refl _) rfl
    refine h₁.setBuf hB (by rintro _ ⟨⟩; exact .inl rfl)
      (fun u U B₁ hu => h₁.not_live_of_buffer hT hb hon hu U B₁) ?_
    intro hfb
    rw [freeing_setFrames_eq [.delivered x t B'.targetNode.isNone] hfr rfl] at hfb
    exact absurd hfb hf
  · cases he
    exact h.setFrames hfr [.cleanupTransaction t] (List.nil_sublist _) (by simp [Act.frees])
      (by simp [Fits, Act.refs, Act.self, Act.calls, ActOk, Act.holds])

/-- A call reaches user space: its transaction goes on the stack of the thread that has read it. -/
theorem Inv.exec_delivered {isReply : Bool} (hfr : s.frames a = .delivered x t isReply :: rest)
    (he : s.execAct L a rest env (.delivered x t isReply) = some s') : Inv L s' := by
  have hset : Settled s.contents s t := h.refs (hfr ▸ List.mem_cons_self) (by simp [Act.refs])
  simp only [TxnState.execAct, bind, Option.bind_eq_some_iff] at he
  obtain ⟨T, hT, he⟩ := he
  split at he
  · cases he
    let T' := { T with toParent := (s.thread x).transactionStack, toThread := some x }
    have hproc : T.toProc = none → T.buffer = none := h.links.toProc hT
    have hfrom : ∀ v, T.fromParent = some v → Settled s.contents s v :=
      fun _ hv => h.parents.fromParent hT hv
    have h₁ : Inv L (s.setTxn t (some T')) := by
      refine h.setTxn hT (.inl rfl) hproc (fun hon => absurd hon hset.2) ?_ hfrom
      rintro y v ⟨⟩ hv
      exact h.parents.stack hv
    have h₂ : Inv L ((s.setTxn t (some T')).setStack x (some t)) := by
      refine h₁.setStack ?_ ?_
      · rintro _ ⟨⟩; exact ⟨hset.1, fun _ _ _ => hset.2⟩
      · rintro _ _ _ _ _ _ ⟨⟩; exact hset
    exact h₂.pass hfr
  · cases he
    exact h.setFrames hfr [.freeTransaction t] (by simp [Act.holds]) (by simp [Act.frees])
      (by simp [Fits, Act.refs, Act.self, Act.calls, ActOk, hset])

theorem Inv.exec_releaseWork (hfr : s.frames a = .releaseWork l :: rest)
    (he : s.execAct L a rest env (.releaseWork l) = some s') : Inv L s' := by
  simp only [TxnState.execAct] at he
  split at he
  · cases he; exact h.pass hfr
  · rename_i t ws hl
    cases he
    exact h.dequeue hfr ⟨rfl, rfl, fun _ => rfl, rfl, rfl⟩ (fun _ _ => id)
      [.cleanupTransaction t, .releaseWork l] hl rfl rfl rfl (List.nil_sublist _) (List.nil_sublist _)
      (by simp [Fits, Act.refs, Act.self, Act.calls, ActOk, Act.holds])
  · rename_i k ws hl
    cases he
    refine h.next hfr [.releaseWork l] ⟨rfl, rfl, fun _ => rfl, rfl, rfl⟩ (fun l' => ?_) rfl (.refl _)
      (fun _ _ => id) (by simp [Act.holds]) (by simp [Act.frees])
      (by simp [Fits, Act.refs, Act.self, Act.calls, ActOk])
    rcases eq_or_ne l' l with rfl | hne
    · rw [TxnState.setFrames_todo, TxnState.setTodo_todo, Function.update_self, hl]; rfl
    · rw [TxnState.setFrames_todo, TxnState.setTodo_todo, Function.update_of_ne hne]

theorem Inv.exec_nodeRelease {n : NodeId} (hfr : s.frames a = .nodeRelease n :: rest)
    (he : s.execAct L a rest env (.nodeRelease n) = some s') : Inv L s' := by
  cases he
  refine h.next hfr [] ⟨rfl, rfl, fun _ => rfl, rfl, rfl⟩ (fun _ => rfl) rfl (.refl _) ?_ (by simp)
    (by simp) (by simp)
  intro m p hp
  rcases eq_or_ne m n with rfl | hne
  · simp at hp
  · simpa [hne] using hp

end Acts

/-- Every step of a task keeps the invariant. -/
theorem Inv.execAct (h : Inv L s) (hw : ∀ p y, y ∈ s.waitingThreads p → L.procOf y = p)
    (hasync : ∀ n w, w ∈ s.todo (.node n) → ∃ t, w = .transaction t)
    (hfr : s.frames a = act :: rest) (he : s.execAct L a rest env act = some s') : Inv L s' := by
  cases act with
  | check => exact h.exec_check hfr he
  | replyTarget => exact h.exec_replyTarget hfr he
  | send => exact h.exec_send hfr he
  | build => exact h.exec_build hfr he
  | procTransaction => exact h.exec_procTransaction hw hfr he
  | popTransaction => exact h.exec_popTransaction hfr he
  | unwind => exact h.exec_unwind hfr he
  | sendFailedReply => exact h.exec_sendFailedReply hfr he
  | freeTransaction => exact h.exec_freeTransaction hfr he
  | cleanupTransaction => exact h.exec_cleanupTransaction hfr he
  | freeBuf => exact h.exec_freeBuf hfr he
  | freeBufAsync => exact h.exec_freeBufAsync hasync hfr he
  | freeBufRelease => exact h.exec_freeBufRelease hfr he
  | readRetry => exact h.exec_readRetry hfr he
  | wait => exact h.exec_wait hfr he
  | sleep => exact h.exec_sleep hfr he
  | read => exact h.exec_read hfr he
  | deliver => exact h.exec_deliver hfr he
  | copy => exact h.exec_copy hfr he
  | delivered => exact h.exec_delivered hfr he
  | releaseWork => exact h.exec_releaseWork hfr he
  | nodeRelease => exact h.exec_nodeRelease hfr he

/-! ## The ioctl commands and the worker -/

/-- An idle task starts with `new`. -/
theorem Inv.start (h : Inv L s) (hfr : s.frames a = []) (new : List Act)
    (hh : new.filterMap Act.holds = []) (hff : new.filterMap Act.frees = [])
    (hgood : ∀ act ∈ new, Good L s.contents s a new act) : Inv L (s.setFrames a new) := by
  have hcont : (s.setFrames a new).contents = s.contents := by
    rw [TxnState.contents_setFrames, hh]
    exact Function.update_eq_self_iff.mpr (by simp [TxnState.contents, hfr])
  have hfree : (s.setFrames a new).freeing = s.freeing := by
    rw [TxnState.freeing_setFrames, hff]
    exact Function.update_eq_self_iff.mpr (by simp [TxnState.freeing, hfr])
  refine h.control (.setFrames _) (hcont ▸ h.placed) ?_ (hfree ▸ h.freed) ?_ ?_ (fun _ _ => id)
  · intro t p ht
    exact ⟨p, hcont ▸ ht, fun _ _ _ _ => id⟩
  · intro b hb
    exact .inl (hfree ▸ hb)
  · rw [hcont]
    have hfr' : (s.setFrames a new).frames = Function.update s.frames a (new ++ []) := by simp
    exact h.good_acts (fun _ => id) hfr' (by simp) (by simpa using hgood)

/-- Only other work comes or goes, or a process dies. -/
theorem Inv.other (h : Inv L s) (hd : SameData s s') (hfr : s'.frames = s.frames)
    (htodo : ∀ l, (s'.todo l).filterMap Work.txn? = (s.todo l).filterMap Work.txn?)
    (hnode : s'.node = s.node) : Inv L s' := by
  have hcont : s'.contents = s.contents := by
    funext p
    rcases p with l | a
    · exact htodo l
    · simp only [TxnState.contents, hfr]
  have hfree : s'.freeing = s.freeing := by funext a; simp only [TxnState.freeing, hfr]
  refine h.control hd (hcont ▸ h.placed) ?_ (hfree ▸ h.freed) (fun b hb => .inl (hfree ▸ hb)) ?_ ?_
  · intro t p ht
    exact ⟨p, hcont ▸ ht, fun _ _ _ _ => id⟩
  · intro a act _
    exact .inl (by rw [hfr])
  · rw [hnode]; exact fun _ _ => id

/-- One turn of the loop of `binder_thread_release` over the stack of `x`, at `t`: the state and
the next transaction after it. -/
inductive StackTurn (x : ThreadId) (s : TxnState) (t : TxnId) : TxnState → Option TxnId → Prop
  | served (T : Transaction) (b : BufId) (B : Buffer) : s.txn t = some T → T.toThread = some x →
      T.buffer = some b → s.buf b = some B →
      StackTurn x s t ((s.setBuf b (some { B with transaction := none })).setTxn t
        (some { T with toProc := none, toThread := none, buffer := none })) T.toParent
  | unlinked (T : Transaction) : s.txn t = some T → T.toThread = some x → T.buffer = none →
      StackTurn x s t
        (s.setTxn t (some { T with toProc := none, toThread := none, buffer := none })) T.toParent
  | sent (T : Transaction) : s.txn t = some T → T.toThread ≠ some x → T.fromThread = some x →
      StackTurn x s t (s.setTxn t (some { T with fromThread := none })) T.fromParent

/-- The rule of the loop: what every turn keeps holds at the end. -/
theorem releaseStack_rule {I : TxnState → Option TxnId → Prop} {fuel : Nat} {o : Option TxnId}
    (hI : ∀ s t s₁ o, I s (some t) → StackTurn x s t s₁ o → I s₁ o) (h : I s o)
    (he : TxnState.releaseStack x fuel s o = some s') : I s' none := by
  induction fuel generalizing s o with
  | zero =>
    cases o with
    | none => cases he; exact h
    | some t => cases he
  | succ fuel ih =>
    cases o with
    | none => cases he; exact h
    | some t =>
      simp only [TxnState.releaseStack, bind, Option.bind_eq_some_iff] at he
      obtain ⟨T, hT, he⟩ := he
      split at he
      · rename_i hx
        split at he
        · rename_i b hb
          obtain ⟨s₁, hs₁, he⟩ := Option.bind_eq_some_iff.mp he
          obtain ⟨B, hB, hs₁⟩ := Option.bind_eq_some_iff.mp hs₁
          cases hs₁
          exact ih (hI _ _ _ _ h (.served T b B hT hx hb hB)) he
        · exact ih (hI _ _ _ _ h (.unlinked T hT hx ‹_›)) he
      · rename_i hx
        split at he
        · exact ih (hI _ _ _ _ h (.sent T hT hx ‹_›)) he
        · cases he

/-- A turn of the loop changes transactions and buffers only. -/
theorem StackTurn.same {s₁ : TxnState} {o : Option TxnId} (h : StackTurn x s t s₁ o) :
    s₁.frames = s.frames ∧ s₁.todo = s.todo ∧ s₁.nextTxn = s.nextTxn ∧ s₁.node = s.node ∧
      s₁.isDead = s.isDead ∧ s₁.waitingThreads = s.waitingThreads ∧ s₁.thread = s.thread := by
  cases h <;> exact ⟨rfl, rfl, rfl, rfl, rfl, rfl, rfl⟩

theorem Inv.turn {s₁ : TxnState} {o : Option TxnId} (h : Inv L s)
    (hst : Stackable s.contents s x t) (ht : StackTurn x s t s₁ o) :
    Inv L s₁ ∧ ∀ u, o = some u → Stackable s₁.contents s₁ x u := by
  -- A transaction that came to `x` has reached user space, and its fields can go once no buffer
  -- points to it.
  have key {s₁ : TxnState} {T : Transaction} (h₁ : Inv L s₁) (hT : s₁.txn t = some T)
      (hx : T.toThread = some x) (hst : Stackable s₁.contents s₁ x t)
      (hn : ∀ b B, s₁.buf b = some B → B.transaction ≠ some t) :
      let s₂ := s₁.setTxn t (some { T with toProc := none, toThread := none, buffer := none })
      Inv L s₂ ∧ ∀ u, T.toParent = some u → Stackable s₂.contents s₂ x u := by
    have hon := hst.2 T hT hx
    refine ⟨h₁.setTxn hT (.inr ⟨rfl, hn⟩) (fun _ => rfl) (fun ho => absurd ho hon)
      (fun _ _ hy => by cases hy) fun _ hv => h₁.parents.fromParent hT hv, fun u hu => ?_⟩
    have hpar := h₁.parents.toParent hT hx hu
    refine ⟨hpar.1, fun U hU hUx => ?_⟩
    rcases eq_or_ne u t with rfl | hne
    · exact hon
    · exact hpar.2 U (by simpa [hne] using hU) hUx
  cases ht with
  | served T b B hT hx hb hB =>
    have hon := hst.2 T hT hx
    have h₁ : Inv L (s.setBuf b (some { B with transaction := none })) :=
      h.unlink (by simp [TxnState.unlink, hB]) fun u U B hu => h.not_live_of_buffer hT hb hon hu U B
    have hn := h.links.unlinked hT hb (show ∀ B₁, some { B with transaction := none } = some B₁ →
      B₁.transaction = none by rintro _ ⟨⟩; rfl)
    exact key h₁ hT hx hst hn
  | unlinked T hT hx hb =>
    refine key h hT hx hst fun b' B' hB' ht => ?_
    obtain ⟨T', hT', hb'⟩ := h.links.link hB' ht
    rw [hT] at hT'; cases hT'
    rw [hb] at hb'; cases hb'
  | sent T hT hx hfrom =>
    have hpar : ∀ y v, T.toThread = some y → T.toParent = some v → Stackable s.contents s y v :=
      fun _ _ hy hv => h.parents.toParent hT hy hv
    have hset : ∀ v, T.fromParent = some v → Settled s.contents s v :=
      fun _ hv => h.parents.fromParent hT hv
    have hproc : T.toProc = none → T.buffer = none := h.links.toProc hT
    exact ⟨h.setTxn hT (.inl rfl) hproc (fun _ => ⟨rfl, rfl, rfl, rfl⟩) hpar hset,
      fun u hu => ⟨(hset u hu).1, fun _ _ _ => (hset u hu).2⟩⟩

/-- The loop of `binder_thread_release` over the stack of a thread. -/
theorem Inv.releaseStack {fuel : Nat} {o : Option TxnId} (h : Inv L s)
    (ho : ∀ t, o = some t → Stackable s.contents s x t)
    (he : TxnState.releaseStack x fuel s o = some s') :
    Inv L s' ∧ s'.frames = s.frames ∧ s'.todo = s.todo ∧ s'.nextTxn = s.nextTxn ∧
      s'.node = s.node ∧ s'.isDead = s.isDead ∧ s'.waitingThreads = s.waitingThreads ∧
      s'.thread = s.thread := by
  have := releaseStack_rule (I := fun s₁ o => (Inv L s₁ ∧ ∀ u, o = some u →
    Stackable s₁.contents s₁ x u) ∧ s₁.frames = s.frames ∧ s₁.todo = s.todo ∧
      s₁.nextTxn = s.nextTxn ∧ s₁.node = s.node ∧ s₁.isDead = s.isDead ∧
      s₁.waitingThreads = s.waitingThreads ∧ s₁.thread = s.thread) ?_
    ⟨⟨h, ho⟩, rfl, rfl, rfl, rfl, rfl, rfl, rfl⟩ he
  · exact ⟨this.1.1, this.2⟩
  · rintro s₁ t s₂ o ⟨⟨h₁, ho₁⟩, e₁, e₂, e₃, e₄, e₅, e₆, e₇⟩ ht
    obtain ⟨f₁, f₂, f₃, f₄, f₅, f₆, f₇⟩ := ht.same
    exact ⟨h₁.turn (ho₁ t rfl) ht, f₁.trans e₁, f₂.trans e₂, f₃.trans e₃, f₄.trans e₄, f₅.trans e₅,
      f₆.trans e₆, f₇.trans e₇⟩

/-- What `binder_thread_release` leaves, up to `binder_send_failed_reply`. -/
theorem threadRelease_eq {fuel : Nat} (he : s.threadRelease a x fuel = some s') :
    (s.thread x).isDead = false ∧ ∃ s₁,
      TxnState.releaseStack x fuel (s.setThread x { s.thread x with isDead := true })
        (s.thread x).transactionStack = some s₁ ∧
      ∃ new : List Act, (∀ act ∈ new, act = .releaseWork (.thread x) ∨
          ∃ t T, act = .sendFailedReply t ∧ (s.thread x).transactionStack = some t ∧
            s.txn t = some T ∧ T.toThread = some x) ∧
        s' = s₁.setFrames a new := by
  simp only [TxnState.threadRelease, bind, Option.bind_eq_some_iff, Option.guard_eq_some',
    exists_const, Option.some.injEq] at he
  obtain ⟨hd, s₁, hs₁, rfl⟩ := he
  refine ⟨by simpa using hd, s₁, hs₁, _, ?_, rfl⟩
  intro act hact
  rcases List.mem_append.mp hact with hact | hact
  · obtain ⟨t, ht, rfl⟩ := List.mem_map.mp hact
    rw [Option.mem_toList, Option.filter_eq_some_iff] at ht
    obtain ⟨hst, hany⟩ := ht
    cases hT : s.txn t with
    | none => rw [hT] at hany; cases hany
    | some T =>
      rw [hT] at hany
      exact .inr ⟨t, T, rfl, hst, hT, by simpa using hany⟩
  · exact .inl (List.mem_singleton.mp hact)

end Redroid.Binder.Txn
