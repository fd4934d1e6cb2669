import Redroid.Binder.TxnFlow

/-!
# The order of the asynchronous transactions of a node

* `InFlight`: an asynchronous transaction of the node is on a list of the process or of a thread,
  is being read, is with user space, or is being freed, until `binder_free_buf` lets the next one go.
* `History`: for each node, the transactions in the order in which `binder_proc_transaction` has
  accepted them, and in the order in which `binder_thread_read` has taken them off the lists.
* `Serial`: at most one is in flight, and the second order is a part of the first.
-/

namespace Redroid.Binder.Txn

variable {L : Layout} {s s' : TxnState} {t u : TxnId} {b b' : BufId} {B : Buffer} {l : WorkList}
  {op : TxnOp} {n m : NodeId} {ph : Phase} {ev : Event}

/-- An asynchronous transaction of the node `n`, with the buffer `b`, is in flight. -/
def InFlight (s : TxnState) (n : NodeId) (b : BufId) : Prop :=
  IsAsync s n b ∧ ∃ ph, InPhase s b ph ∧ ph.inFlight = true

theorem InFlight.phase (hi : Inv L s) (h : InFlight s n b) (hp : InPhase s b ph) :
    ph.inFlight = true := by
  obtain ⟨-, q, hq, hf⟩ := h
  rw [hp.unique hi hq]
  exact hf

theorem InFlight.of_same (h : InFlight s' n b) (h' : Same s s' b) : InFlight s n b := by
  obtain ⟨ha, ph, hph, hf⟩ := h
  exact ⟨ha.of_kind h'.kind.symm, ph, (h'.phase ph).mp hph, hf⟩

/-! ## One in flight -/

/-- The flag of a node is set while a transaction of it is in flight or waits, and at most one is
in flight. -/
structure Ordered (s : TxnState) : Prop where
  flag : ∀ {n b}, InFlight s n b → (s.node n).hasAsyncTransaction = true
  unique : ∀ {n b b'}, InFlight s n b → InFlight s n b' → b = b'
  queue : ∀ {n}, s.contents (.list (.node n)) ≠ [] → (s.node n).hasAsyncTransaction = true

/-- No transaction is launched, and no flag of a node with one in flight is cleared. -/
theorem Ordered.back (h : Ordered s) (hback : ∀ {n b}, InFlight s' n b → InFlight s n b)
    (hflag : ∀ {n}, (s.node n).hasAsyncTransaction = true → (s'.node n).hasAsyncTransaction = true)
    (hqueue : ∀ {n}, s'.contents (.list (.node n)) ≠ [] → s.contents (.list (.node n)) ≠ []) :
    Ordered s' where
  flag hb := hflag (h.flag (hback hb))
  unique hb hb' := h.unique (hback hb) (hback hb')
  queue hn := hflag (h.queue (hqueue hn))

theorem BufStep.ordered (hi : Inv L s) (hi' : Inv L s') (hbs : BufStep L s op s' ev)
    (h : Ordered s) : Ordered s' := by
  have hflags (hfl : SameFlags s s') {n : NodeId} (hn : (s.node n).hasAsyncTransaction = true) :
      (s'.node n).hasAsyncTransaction = true := (hfl n).trans hn
  have hqueues (hq : SameQueues s s') {n : NodeId} (hn : s'.contents (.list (.node n)) ≠ []) :
      s.contents (.list (.node n)) ≠ [] := by rwa [hq n] at hn
  -- a buffer that moves was in flight before, or is not in flight after
  have hmoves {b₀ : BufId} {p q : Phase} (hm : Moves s s' b₀ p q)
      (hpq : p.inFlight = true ∨ q.inFlight = false) {n : NodeId} {b : BufId}
      (hb : InFlight s' n b) : InFlight s n b := by
    rcases eq_or_ne b b₀ with rfl | hne
    · have hq := hb.phase hi' hm.after
      rcases hpq with hp | hp
      · exact ⟨hb.1.of_kind hm.kind.symm, p, hm.before, hp⟩
      · rw [hq] at hp; cases hp
    · exact hb.of_same (hm.other b hne)
  have hlost {b₀ : BufId} {p : Phase} (hm : Loses s s' b₀ p) {n : NodeId} {b : BufId}
      (hb : InFlight s' n b) : InFlight s n b := by
    refine hb.of_same (hm.other b ?_)
    rintro rfl
    obtain ⟨-, q, hq, -⟩ := hb
    exact hm.after q hq
  have hfreed {b₀ : BufId} (hnone : s'.buf b₀ = none) (hother : ∀ b', b' ≠ b₀ → Same s s' b')
      {n : NodeId} {b : BufId} (hb : InFlight s' n b) : InFlight s n b := by
    refine hb.of_same (hother b ?_)
    rintro rfl
    obtain ⟨⟨B, hB, -⟩, -⟩ := hb
    rw [hnone] at hB; cases hB
  cases hbs with
  | stay hb hfl hq => exact h.back (fun hn => hn.of_same (hb _)) (hflags hfl) (hqueues hq)
  | alloc b₀ t _ _ hph hother hfl hq =>
    refine h.back (fun {n b} hb => hb.of_same (hother b ?_)) (hflags hfl) (hqueues hq)
    rintro rfl
    cases hb.phase hi' hph
  | reject m _ hb hfl hq =>
    refine h.back (fun hn => hn.of_same (hb _)) (fun hn => ?_) (hqueues hq)
    rw [hfl, hn, Bool.true_or]
  | abort b₀ t _ hnone hother hfl hq => exact h.back (hfreed hnone hother) (hflags hfl) (hqueues hq)
  | wait t b₀ B m _ _ _ hset hm hfl hn hne =>
    refine ⟨fun hb => hflags hfl (h.flag (hmoves hm (.inr rfl) hb)),
      fun hb hb' => h.unique (hmoves hm (.inr rfl) hb) (hmoves hm (.inr rfl) hb'), fun {n} hq => ?_⟩
    rcases eq_or_ne n m with rfl | hnm
    · exact hflags hfl hset
    · exact hflags hfl (h.queue (by rwa [hne n hnm] at hq))
  | take t b₀ l hl hm hfl hq =>
    refine h.back (hmoves hm (.inl ?_)) (hflags hfl) (hqueues hq)
    cases l with
    | proc | thread => rfl
    | node k => exact absurd rfl (hl k)
  | drop t b₀ l _ hm hfl hq =>
    refine h.back (hlost hm) (hflags hfl) (fun {n} hn => ?_)
    have := hq n
    split at this
    · rename_i he
      subst he
      rw [this]; simp
    · rwa [this] at hn
  | lose a env x t rest b₀ _ _ _ hm hfl hq => exact h.back (hlost hm) (hflags hfl) (hqueues hq)
  | toUser b₀ t hm hfl hq => exact h.back (hmoves hm (.inl rfl)) (hflags hfl) (hqueues hq)
  | toFree b₀ p hp hm hfl hq =>
    refine h.back (hmoves hm (.inl ?_)) (hflags hfl) (hqueues hq)
    rcases hp with ⟨t, rfl⟩ | rfl <;> rfl
  | pass b₀ B _ _ hm hfl hq => exact h.back (hmoves hm (.inl rfl)) (hflags hfl) (hqueues hq)
  | free b₀ _ hnone hother hfl hq => exact h.back (hfreed hnone hother) (hflags hfl) (hqueues hq)
  | last b₀ B m hB ha hm' hnil hm hfl hq =>
    have hback {n : NodeId} {b : BufId} (hb : InFlight s' n b) : InFlight s n b ∧ n ≠ m := by
      have hb' := hmoves hm (.inl rfl) hb
      refine ⟨hb', ?_⟩
      rintro rfl
      -- the one that was in flight is released now
      have : b = b₀ := h.unique hb' ⟨⟨B, hB, ha, hm'⟩, _, hm.before, rfl⟩
      subst this
      cases hb.phase hi' hm.after
    refine ⟨fun hb => ?_, fun hb hb' => h.unique (hback hb).1 (hback hb').1, fun {n} hn => ?_⟩
    · rw [hfl, h.flag (hback hb).1, decide_eq_false (hback hb).2]; rfl
    · rw [hq n] at hn
      have hnm : n ≠ m := by
        rintro rfl
        exact hn hnil
      rw [hfl, h.queue hn, decide_eq_false hnm]; rfl
  | accept t b₀ B l ev hB hm hl _ _ hno hfl hq =>
    have hfl' {n : NodeId} (hn : (s.node n).hasAsyncTransaction = true) :
        (s'.node n).hasAsyncTransaction = true := by rw [hfl, hn, Bool.true_or]
    -- the flag was not set, so none was in flight
    have hcase {n : NodeId} {b : BufId} (hb : InFlight s' n b) :
        (b = b₀ ∧ (s.node n).hasAsyncTransaction = false ∧ (s'.node n).hasAsyncTransaction = true) ∨
          InFlight s n b := by
      rcases eq_or_ne b b₀ with rfl | hne
      · obtain ⟨ha, hn⟩ := (hb.1.of_kind hm.kind.symm).eq hB
        exact .inl ⟨rfl, hno n ha hn, by rw [hfl, ha, hn]; simp⟩
      · exact .inr (hb.of_same (hm.other b hne))
    refine ⟨fun hb => ?_, fun hb hb' => ?_, fun hn => hfl' (h.queue (hqueues hq hn))⟩
    · rcases hcase hb with ⟨-, -, hset⟩ | hb
      · exact hset
      · exact hfl' (h.flag hb)
    · rcases hcase hb with ⟨rfl, hno, -⟩ | hb <;> rcases hcase hb' with ⟨rfl, hno', -⟩ | hb'
      · rfl
      · rw [h.flag hb'] at hno; cases hno
      · rw [h.flag hb] at hno'; cases hno'
      · exact h.unique hb hb'
  | next b₀ B m t b₂ hB ha hm' hne₂ hm hother hbef haft hq₂ hq₂' hkind hsame hfl =>
    have hb₀ : InFlight s m b₀ := ⟨⟨B, hB, ha, hm'⟩, _, hbef, rfl⟩
    have hcase {n : NodeId} {b : BufId} (hb : InFlight s' n b) :
        (b = b₂ ∧ n = m) ∨ n ≠ m ∧ InFlight s n b := by
      have hbb : b ≠ b₀ := by
        rintro rfl
        cases hb.phase hi' haft
      rcases eq_or_ne b b₂ with rfl | hne
      · obtain ⟨B₂, hB₂⟩ := hq₂.buf
        have hat := hq₂.1.proc hi hB₂ (mem_contents_list.mpr hq₂.2)
        have := ((hb.1.of_kind (hkind b).symm).eq hB₂).2
        rw [hat.2] at this
        exact .inl ⟨rfl, (Option.some.inj this).symm⟩
      · have hb' := hb.of_same (hsame b hbb hne)
        refine .inr ⟨?_, hb'⟩
        rintro rfl
        exact hbb (h.unique hb' hb₀)
    refine ⟨fun hb => ?_, fun hb hb' => ?_, fun {n} hn => ?_⟩
    · rcases hcase hb with ⟨-, rfl⟩ | ⟨-, hb⟩
      · exact hflags hfl (h.flag hb₀)
      · exact hflags hfl (h.flag hb)
    · rcases hcase hb with ⟨rfl, rfl⟩ | ⟨hne, hb⟩ <;> rcases hcase hb' with ⟨rfl, he⟩ | ⟨hne', hb'⟩
      · rfl
      · exact absurd rfl hne'
      · exact absurd he hne
      · exact h.unique hb hb'
    · rcases eq_or_ne n m with rfl | hnm
      · exact hflags hfl (h.flag hb₀)
      · exact hflags hfl (h.queue (by rwa [hother n hnm] at hn))

/-! ## The order of acceptance and of delivery -/

/-- The transactions of each node that have been accepted, and that have been taken off a list to
be delivered, the oldest first. -/
structure History where
  accepted : NodeId → List TxnId
  dequeued : NodeId → List TxnId

/-- The node that `t` is an asynchronous transaction of. -/
def TxnState.asyncNode (s : TxnState) (t : TxnId) : Option NodeId := do
  let T ← s.txn t
  let B ← s.buf (← T.buffer)
  guard B.asyncTransaction
  B.targetNode

/-- The history after an event in the state `s`. -/
def History.record (h : History) (s : TxnState) : Event → History
  | .none => h
  | .accepted t =>
    match s.asyncNode t with
    | some n => { h with accepted := Function.update h.accepted n (h.accepted n ++ [t]) }
    | none => h
  | .dequeued t =>
    match s.asyncNode t with
    | some n => { h with dequeued := Function.update h.dequeued n (h.dequeued n ++ [t]) }
    | none => h

/-- A step, recorded. -/
def historyExec (L : Layout) (r : TxnState × History) (op : TxnOp) : Option (TxnState × History) :=
  (r.1.exec L op).map fun s' => (s', r.2.record r.1 (event r.1 s' op))

/-- No step has been taken. -/
def historyStart (L : Layout) : TxnState × History := (start L, ⟨fun _ => [], fun _ => []⟩)

/-- The runs, with their history. -/
def historySys (L : Layout) : Sys (TxnState × History) TxnOp :=
  .ofExec (· = historyStart L) (historyExec L)

theorem Linked.asyncNode (hi : Inv L s) (h : Linked s b t) (hB : s.buf b = some B) :
    s.asyncNode t = if B.asyncTransaction then B.targetNode else none := by
  obtain ⟨T, hT, hb⟩ := h.txn hi
  simp only [TxnState.asyncNode, hT, hb, hB, bind, Option.bind_some]
  cases B.asyncTransaction <;> rfl

/-- `q` is the transaction of the node that is on a list of the process or of a thread, if there
is one. -/
def OnItsWay (s : TxnState) (n : NodeId) (q : List TxnId) : Prop :=
  ∀ {b l t}, IsAsync s n b → (∀ m, l ≠ .node m) → InPhase s b (.queued l t) → q = [t]

/-- What has been delivered, is on its way and waits is a part of what has been accepted, in the
same order. -/
structure Serial (s : TxnState) (h : History) : Prop where
  order : ∀ n, ∃ q, OnItsWay s n q ∧
    (h.dequeued n ++ (q ++ s.contents (.list (.node n)))).Sublist (h.accepted n)
  nodup : ∀ n, (h.accepted n).Nodup
  sent : ∀ {n t}, t ∈ h.accepted n → t < s.nextTxn ∧ ∀ b, ¬ InPhase s b (.sending t)

theorem inFlight_queued (ha : IsAsync s n b) (hl : ∀ m, l ≠ .node m)
    (hq : InPhase s b (.queued l t)) : InFlight s n b := by
  refine ⟨ha, _, hq, ?_⟩
  cases l with
  | proc | thread => rfl
  | node m => exact absurd rfl (hl m)

/-- Only a new transaction starts to be sent. -/
theorem BufStep.sending (hi' : Inv L s') (hbs : BufStep L s op s' ev)
    (h : InPhase s' b (.sending t)) : InPhase s b (.sending t) ∨ s.nextTxn ≤ t := by
  have hmoves {b₀ : BufId} {p q : Phase} (hm : Moves s s' b₀ p q) (hq : q ≠ .sending t) :
      InPhase s b (.sending t) ∨ s.nextTxn ≤ t := by
    refine .inl (((hm.other b ?_).phase _).mp h)
    rintro rfl
    exact hq (hm.after.unique hi' h)
  have hlost {b₀ : BufId} {p : Phase} (hm : Loses s s' b₀ p) :
      InPhase s b (.sending t) ∨ s.nextTxn ≤ t := by
    refine .inl (((hm.other b ?_).phase _).mp h)
    rintro rfl
    exact hm.after _ h
  have hfreed {b₀ : BufId} (hnone : s'.buf b₀ = none) (hother : ∀ b', b' ≠ b₀ → Same s s' b') :
      InPhase s b (.sending t) ∨ s.nextTxn ≤ t := by
    refine .inl (((hother b ?_).phase _).mp h)
    rintro rfl
    obtain ⟨B, hB⟩ := h.buf
    rw [hnone] at hB; cases hB
  cases hbs with
  | stay hb => exact .inl (((hb b).phase _).mp h)
  | alloc b₀ u _ hu hph hother =>
    rcases eq_or_ne b b₀ with rfl | hne
    · cases hph.unique hi' h
      exact .inr hu
    · exact .inl (((hother b hne).phase _).mp h)
  | reject m _ hb => exact .inl (((hb b).phase _).mp h)
  | abort b₀ u _ hnone hother => exact hfreed hnone hother
  | accept u b₀ B l ev _ hm => exact hmoves hm (by simp)
  | wait u b₀ B m _ _ _ _ hm => exact hmoves hm (by simp)
  | take u b₀ l _ hm => exact hmoves hm (by simp)
  | drop u b₀ l _ hm => exact hlost hm
  | lose a env x u rest b₀ _ _ _ hm => exact hlost hm
  | toUser b₀ u hm => exact hmoves hm (by simp)
  | toFree b₀ p _ hm => exact hmoves hm (by simp)
  | last b₀ B m _ _ _ _ hm => exact hmoves hm (by simp)
  | next b₀ B m u b₂ _ _ _ _ _ _ _ hrel _ hq _ hother =>
    refine .inl (((hother b ?_ ?_).phase _).mp h)
    · rintro rfl
      cases hrel.unique hi' h
    · rintro rfl
      cases hq.unique hi' h
  | pass b₀ B _ _ hm => exact hmoves hm (by simp)
  | free b₀ _ hnone hother => exact hfreed hnone hother

/-- The accepted transactions are distinct, and none of them is sent again. -/
theorem BufStep.accepted {h : History} (hi : Inv L s) (hi' : Inv L s') (hn : s.nextTxn ≤ s'.nextTxn)
    (hbs : BufStep L s op s' ev) (hs : Serial s h) (n : NodeId) :
    ((h.record s ev).accepted n).Nodup ∧ ∀ t ∈ (h.record s ev).accepted n,
      t < s'.nextTxn ∧ ∀ b, ¬ InPhase s' b (.sending t) := by
  have hold {t : TxnId} (ht : t ∈ h.accepted n) :
      t < s'.nextTxn ∧ ∀ b, ¬ InPhase s' b (.sending t) := by
    obtain ⟨hlt, hno⟩ := hs.sent ht
    refine ⟨hlt.trans_le hn, fun b hb => ?_⟩
    rcases hbs.sending hi' hb with hb | hle
    · exact hno b hb
    · exact absurd hlt (Nat.not_lt.mpr hle)
  have hnew {t : TxnId} {b₀ : BufId} {l : WorkList}
      (hm : Moves s s' b₀ (.sending t) (.queued l t)) :
      ((h.record s (.accepted t)).accepted n).Nodup ∧ ∀ u ∈ (h.record s (.accepted t)).accepted n,
        u < s'.nextTxn ∧ ∀ b, ¬ InPhase s' b (.sending u) := by
    obtain ⟨T, hT, -⟩ := hm.before.1.txn hi
    have hlt := hi.links.txn_lt hT
    have hthis : t < s'.nextTxn ∧ ∀ b, ¬ InPhase s' b (.sending t) := by
      refine ⟨hlt.trans_le hn, fun b hb => ?_⟩
      rcases hbs.sending hi' hb with hb' | hle
      · cases hb'.1.inj hi hm.before.1
        cases hb.unique hi' hm.after
      · exact absurd hlt (Nat.not_lt.mpr hle)
    have hnot : t ∉ h.accepted n := fun ht => (hs.sent ht).2 b₀ hm.before
    simp only [History.record]
    split
    · rename_i m _
      rcases eq_or_ne n m with rfl | hne
      · simp only [Function.update_self]
        refine ⟨List.nodup_append.mpr ⟨hs.nodup n, List.nodup_singleton t, ?_⟩, fun u hu => ?_⟩
        · rintro u hu v hv rfl
          rw [List.mem_singleton.mp hv] at hu
          exact hnot hu
        · rcases List.mem_append.mp hu with hu | hu
          · exact hold hu
          · rw [List.mem_singleton.mp hu]
            exact hthis
      · simp only [Function.update_of_ne hne]
        exact ⟨hs.nodup n, fun u hu => hold hu⟩
    · exact ⟨hs.nodup n, fun u hu => hold hu⟩
  have hrest : (∀ t, ev ≠ .accepted t) → ((h.record s ev).accepted n).Nodup ∧
      ∀ t ∈ (h.record s ev).accepted n, t < s'.nextTxn ∧ ∀ b, ¬ InPhase s' b (.sending t) := by
    intro hev
    have hacc : (h.record s ev).accepted = h.accepted := by
      cases ev with
      | none => rfl
      | accepted t => exact absurd rfl (hev t)
      | dequeued t =>
        simp only [History.record]
        split <;> rfl
    rw [hacc]
    exact ⟨hs.nodup n, fun u hu => hold hu⟩
  cases hbs with
  | accept t b₀ B l ev hB hm _ _ hev =>
    rcases hev with rfl | ⟨rfl, -⟩
    · exact hnew hm
    · exact hrest (by simp)
  | wait t b₀ B m _ _ _ _ hm => exact hnew hm
  | _ => exact hrest (by simp)

/-- No transaction of the node is put on a list of the process or of a thread. -/
theorem OnItsWay.of_back {q : List TxnId} (h : OnItsWay s n q)
    (hback : ∀ {b l t}, IsAsync s' n b → (∀ m, l ≠ .node m) → InPhase s' b (.queued l t) →
      IsAsync s n b ∧ InPhase s b (.queued l t)) : OnItsWay s' n q := by
  intro b l t ha hl hq
  obtain ⟨ha, hq⟩ := hback ha hl hq
  exact h ha hl hq

/-- The one in flight is on no list, so there is none on its way. -/
theorem onItsWay_nil (hi : Inv L s) (ho : Ordered s) (hb : InFlight s n b) (hph : InPhase s b ph)
    (hno : ∀ l t, ph ≠ .queued l t) {q : List TxnId} : OnItsWay s n q := by
  intro b' l t ha hl hq
  cases ho.unique hb (inFlight_queued ha hl hq)
  exact absurd (hph.unique hi hq) (hno l t)

/-- The one in flight is `t`, on a list. -/
theorem onItsWay_singleton (hi : Inv L s) (ho : Ordered s) (hb : InFlight s n b)
    (hph : InPhase s b (.queued l t)) : OnItsWay s n [t] := by
  intro b' l' t' ha hl hq
  cases ho.unique hb (inFlight_queued ha hl hq)
  cases hph.unique hi hq
  rfl

theorem BufStep.order {h : History} (hi : Inv L s) (hi' : Inv L s') (ho : Ordered s)
    (hbs : BufStep L s op s' ev) (hs : Serial s h) (n : NodeId) :
    ∃ q, OnItsWay s' n q ∧ ((h.record s ev).dequeued n ++
      (q ++ s'.contents (.list (.node n)))).Sublist ((h.record s ev).accepted n) := by
  have ho' := hbs.ordered hi hi' ho
  obtain ⟨q, hq, hsub⟩ := hs.order n
  -- nothing new for the node
  have hkeep (hback : ∀ {b l t}, IsAsync s' n b → (∀ m, l ≠ .node m) → InPhase s' b (.queued l t) →
      IsAsync s n b ∧ InPhase s b (.queued l t))
      (hc : (s'.contents (.list (.node n))).Sublist (s.contents (.list (.node n)))) :
      ∃ q, OnItsWay s' n q ∧ (h.dequeued n ++
        (q ++ s'.contents (.list (.node n)))).Sublist (h.accepted n) :=
    ⟨q, hq.of_back hback, ((List.Sublist.refl _).append ((List.Sublist.refl _).append hc)).trans hsub⟩
  have hsame {b : BufId} {l : WorkList} {t : TxnId} (h : Same s s' b) (ha : IsAsync s' n b)
      (hph : InPhase s' b (.queued l t)) : IsAsync s n b ∧ InPhase s b (.queued l t) :=
    ⟨ha.of_kind h.kind.symm, (h.phase _).mp hph⟩
  have hqueue (hq : SameQueues s s') :
      (s'.contents (.list (.node n))).Sublist (s.contents (.list (.node n))) := by rw [hq n]
  have hmoves {b₀ : BufId} {p p' : Phase} (hm : Moves s s' b₀ p p')
      (hp' : IsAsync s' n b₀ → ∀ l t, p' = .queued l t → ∃ m, l = .node m) {b : BufId}
      {l : WorkList} {t : TxnId} (ha : IsAsync s' n b) (hl : ∀ m, l ≠ .node m)
      (hph : InPhase s' b (.queued l t)) : IsAsync s n b ∧ InPhase s b (.queued l t) := by
    refine hsame (hm.other b ?_) ha hph
    rintro rfl
    obtain ⟨m, hm'⟩ := hp' ha l t (hm.after.unique hi' hph)
    exact hl m hm'
  have hlost {b₀ : BufId} {p : Phase} (hm : Loses s s' b₀ p) {b : BufId} {l : WorkList} {t : TxnId}
      (ha : IsAsync s' n b) (hph : InPhase s' b (.queued l t)) :
      IsAsync s n b ∧ InPhase s b (.queued l t) := by
    refine hsame (hm.other b ?_) ha hph
    rintro rfl
    exact hm.after _ hph
  have hfreed {b₀ : BufId} (hnone : s'.buf b₀ = none) (hother : ∀ b', b' ≠ b₀ → Same s s' b')
      {b : BufId} {l : WorkList} {t : TxnId} (ha : IsAsync s' n b)
      (hph : InPhase s' b (.queued l t)) : IsAsync s n b ∧ InPhase s b (.queued l t) := by
    refine hsame (hother b ?_) ha hph
    rintro rfl
    obtain ⟨B, hB⟩ := hph.buf
    rw [hnone] at hB; cases hB
  cases hbs with
  | stay hb _ hq => exact hkeep (fun ha _ => hsame (hb _) ha) (hqueue hq)
  | alloc b₀ t _ _ hph hother _ hq =>
    refine hkeep (fun {b l u} ha _ hu => hsame (hother b ?_) ha hu) (hqueue hq)
    rintro rfl
    cases hph.unique hi' hu
  | reject m _ hb _ hq => exact hkeep (fun ha _ => hsame (hb _) ha) (hqueue hq)
  | abort b₀ t _ hnone hother _ hq => exact hkeep (fun ha _ => hfreed hnone hother ha) (hqueue hq)
  | drop t b₀ l _ hm _ hq =>
    refine hkeep (fun ha _ => hlost hm ha) ?_
    have := hq n
    split at this
    · rename_i he
      subst he
      rw [this]
      exact List.sublist_cons_self _ _
    · rw [this]
  | lose a env x t rest b₀ _ _ _ hm _ hq => exact hkeep (fun ha _ => hlost hm ha) (hqueue hq)
  | toUser b₀ t hm _ hq => exact hkeep (hmoves hm (by simp)) (hqueue hq)
  | toFree b₀ p _ hm _ hq => exact hkeep (hmoves hm (by simp)) (hqueue hq)
  | last b₀ B m _ _ _ _ hm _ hq => exact hkeep (hmoves hm (by simp)) (hqueue hq)
  | pass b₀ B _ _ hm _ hq => exact hkeep (hmoves hm (by simp)) (hqueue hq)
  | free b₀ _ hnone hother _ hq => exact hkeep (fun ha _ => hfreed hnone hother ha) (hqueue hq)
  | accept t b₀ B l ev hB hm hl _ hev hno hfl hsq =>
    have hnode := hm.before.1.asyncNode hi hB
    by_cases ha : IsAsync s n b₀
    · -- none of the node was in flight, and none waited
      obtain ⟨has, hn⟩ := ha.eq hB
      have hnil : s.contents (.list (.node n)) = [] := by
        by_contra hne
        have := hno n has hn
        rw [ho.queue hne] at this
        cases this
      rcases hev with rfl | ⟨-, hev⟩
      · rw [has, hn] at hnode
        simp only [History.record, hnode, if_true, Function.update_self]
        refine ⟨[t], onItsWay_singleton hi' ho' (inFlight_queued (ha.of_kind hm.kind) hl hm.after)
          hm.after, ?_⟩
        rw [hsq n, hnil, List.append_nil]
        exact ((List.sublist_append_left _ _).trans hsub).append (.refl _)
      · rw [has] at hev; cases hev
    · have hrec : (h.record s ev).dequeued n = h.dequeued n ∧
          (h.record s ev).accepted n = h.accepted n := by
        rcases hev with rfl | ⟨rfl, -⟩
        · simp only [History.record]
          split
          · rename_i m hm'
            rw [hm'] at hnode
            have hne : n ≠ m := by
              rintro rfl
              split at hnode
              · exact ha ⟨B, hB, ‹_›, hnode.symm⟩
              · cases hnode
            exact ⟨rfl, Function.update_of_ne hne _ _⟩
          · exact ⟨rfl, rfl⟩
        · exact ⟨rfl, rfl⟩
      rw [hrec.1, hrec.2]
      exact hkeep (hmoves hm fun ha' => absurd (ha'.of_kind hm.kind.symm) ha) (hqueue hsq)
  | wait t b₀ B m hB has hn _ hm _ hc hother =>
    have hnode := hm.before.1.asyncNode hi hB
    rw [has, hn] at hnode
    have hway : OnItsWay s' n q := hq.of_back (hmoves hm fun _ _ _ he => ⟨m, by cases he; rfl⟩)
    refine ⟨q, hway, ?_⟩
    simp only [History.record, hnode, if_true]
    rcases eq_or_ne n m with rfl | hne
    · rw [Function.update_self, hc, ← List.append_assoc, ← List.append_assoc]
      rw [← List.append_assoc] at hsub
      exact hsub.append (.refl _)
    · rw [Function.update_of_ne hne, hother n hne]
      exact hsub
  | take t b₀ l hl hm _ hsq =>
    obtain ⟨B, hB⟩ := hm.before.buf
    have hnode := hm.before.1.asyncNode hi hB
    by_cases ha : IsAsync s n b₀
    · obtain ⟨has, hn⟩ := ha.eq hB
      rw [has, hn] at hnode
      simp only [History.record, hnode, if_true, Function.update_self]
      refine ⟨[], onItsWay_nil hi' ho' ⟨ha.of_kind hm.kind, _, hm.after, rfl⟩ hm.after (by simp), ?_⟩
      rw [hq ha hl hm.before] at hsub
      rw [hsq n, List.append_assoc]
      exact hsub
    · have hrec : (h.record s (.dequeued t)).dequeued n = h.dequeued n ∧
          (h.record s (.dequeued t)).accepted n = h.accepted n := by
        simp only [History.record]
        split
        · rename_i m hm'
          rw [hm'] at hnode
          have hne : n ≠ m := by
            rintro rfl
            split at hnode
            · exact ha ⟨B, hB, ‹_›, hnode.symm⟩
            · cases hnode
          exact ⟨Function.update_of_ne hne _ _, rfl⟩
        · exact ⟨rfl, rfl⟩
      rw [hrec.1, hrec.2]
      exact hkeep (hmoves hm (by simp)) (hqueue hsq)
  | next b₀ B m t b₂ hB has hn hne₂ hc hother hbef haft hq₂ hq₂' hkind hsm _ =>
    obtain ⟨B₂, hB₂⟩ := hq₂.buf
    have hat := hq₂.1.proc hi hB₂ (mem_contents_list.mpr hq₂.2)
    rcases eq_or_ne n m with rfl | hne
    · refine ⟨[t], onItsWay_singleton hi' ho' (inFlight_queued (IsAsync.of_kind ⟨B₂, hB₂, hat⟩
        (hkind b₂)) (by simp) hq₂') hq₂', ?_⟩
      rw [hc] at hsub
      exact ((List.Sublist.refl _).append (List.sublist_append_right q _)).trans hsub
    · refine hkeep (fun {b l u} ha _ hu => hsame (hsm b ?_ ?_) ha hu) (by rw [hother n hne])
      · rintro rfl
        cases haft.unique hi' hu
      · rintro rfl
        have := ((ha.of_kind (hkind b).symm).eq hB₂).2
        rw [hat.2] at this
        exact hne (Option.some.inj this).symm

theorem ordered_start (L : Layout) : Ordered (start L) := by
  refine ⟨?_, ?_, ?_⟩
  · rintro n b ⟨⟨B, hB, -⟩, -⟩
    cases hB
  · rintro n b b' ⟨⟨B, hB, -⟩, -⟩
    cases hB
  · intro n hn
    exact absurd rfl hn

theorem serial_start (L : Layout) : Serial (start L) ⟨fun _ => [], fun _ => []⟩ := by
  refine ⟨fun n => ⟨[], ?_, List.nil_sublist _⟩, fun n => List.nodup_nil, ?_⟩
  · rintro b l t ⟨B, hB, -⟩
    cases hB
  · rintro n t ht
    cases ht

theorem history_inv {r : TxnState × History} (h : (historySys L).Reach r) :
    (Inv L r.1 ∧ Sched L r.1) ∧ Ordered r.1 ∧ Serial r.1 r.2 := by
  refine h.inv (I := fun r => (Inv L r.1 ∧ Sched L r.1) ∧ Ordered r.1 ∧ Serial r.1 r.2) ?_ ?_
  · rintro r rfl
    exact ⟨inv_start L, ordered_start L, serial_start L⟩
  · rintro ⟨s, hist⟩ op r' ⟨⟨hi, hs⟩, ho, hser⟩ hst
    obtain ⟨s', he, rfl⟩ := Option.map_eq_some_iff.mp hst
    simp only at he hi hs ho hser
    have hi' := hi.exec hs he
    have hbs := exec_bufStep hi hs he
    have hacc (n : NodeId) := hbs.accepted hi hi' (exec_dead he).2.1 hser n
    exact ⟨⟨hi', hs.exec hi he⟩, hbs.ordered hi hi' ho, hbs.order hi hi' ho hser,
      fun n => (hacc n).1, fun {n t} ht => (hacc n).2 t ht⟩

/-- At every moment at most one asynchronous transaction of a node is in flight, those that are
queued otherwise wait in `async_todo`, and they are taken off the lists in the order in which they
have been accepted, each at most once. -/
theorem serial_of_reach {r : TxnState × History} (h : (historySys L).Reach r) (n : NodeId) :
    (∀ b b', InFlight r.1 n b → InFlight r.1 n b' → b = b') ∧
      (∀ b l t, IsAsync r.1 n b → InPhase r.1 b (.queued l t) → InFlight r.1 n b ∨ l = .node n) ∧
      (r.2.dequeued n).Sublist (r.2.accepted n) ∧ (r.2.dequeued n).Nodup := by
  obtain ⟨⟨hi, -⟩, ho, hs⟩ := history_inv h
  obtain ⟨q, -, hsub⟩ := hs.order n
  have hsub' := (List.sublist_append_left _ _).trans hsub
  refine ⟨fun b b' hb hb' => ho.unique hb hb', fun b l t ha hq => ?_, hsub', (hs.nodup n).sublist hsub'⟩
  cases l with
  | proc | thread => exact .inl (inFlight_queued ha (by simp) hq)
  | node m =>
    obtain ⟨B, hB⟩ := hq.buf
    have hat := hq.1.proc hi hB (mem_contents_list.mpr hq.2)
    have := (ha.eq hB).2
    rw [hat.2] at this
    exact .inr (congrArg _ (Option.some.inj this))

/-- Two transactions are sent, and the first one is read. -/
def recorded : TxnState × History :=
  (Sys.execIf (historyExec twoProcs) (fun _ _ => True) (historyStart twoProcs)
    (sendOneWay ++ sendOneWay ++ readUpToCopy)).get (by decide)

theorem serial_recorded : recorded.2.accepted 0 = [0, 1] ∧ recorded.2.dequeued 0 = [0] ∧
    (recorded.2.dequeued 0).Sublist (recorded.2.accepted 0) :=
  ⟨rfl, rfl, (serial_of_reach (L := twoProcs)
    (Sys.ReachIf.execIf (.init rfl) (Option.some_get _).symm) 0).2.2.1⟩

/-- In flight in a wider sense: until the buffer is free. -/
def UntilFreed (s : TxnState) (n : NodeId) (b : BufId) : Prop :=
  IsAsync s n b ∧ ∃ ph, InPhase s b ph ∧ (ph.inFlight = true ∨ ph = .released)

/-- Two transactions are sent, the first one is read, and `binder_free_buf` has let the second one
go on. -/
def afterHandOver : TxnState :=
  (Sys.execIf (TxnState.exec twoProcs) (fun _ _ => True) (start twoProcs)
    (sendOneWay ++ sendOneWay ++ readUpToCopy ++ goOn 1 3 ++ .freeBuffer 1 0 :: goOn 1 2)).get
    (by decide)

/-- The first buffer is still allocated while the second transaction is on the list of the
process. -/
theorem untilFreed_afterHandOver : (txnSys twoProcs).Reach afterHandOver ∧
    ¬ ∀ b b', UntilFreed afterHandOver 0 b → UntilFreed afterHandOver 0 b' → b = b' := by
  refine ⟨Sys.ReachIf.execIf (.init rfl) (Option.some_get _).symm, fun h => ?_⟩
  have h₀ : UntilFreed afterHandOver 0 0 := by
    refine ⟨⟨⟨1, true, some 0, none, false⟩, rfl, rfl, rfl⟩, .released, ⟨rfl, ?_⟩, .inr rfl⟩
    exact ⟨.thread 1, .freeBufRelease 0, List.mem_singleton.mpr rfl, rfl⟩
  have h₁ : UntilFreed afterHandOver 0 1 := by
    refine ⟨⟨⟨1, true, some 0, some 1, false⟩, rfl, rfl, rfl⟩, .queued (.proc 1) 1, ⟨?_, ?_⟩, .inl rfl⟩
    · exact ⟨⟨1, true, some 0, some 1, false⟩, rfl, rfl⟩
    · exact List.mem_singleton.mpr rfl
  cases h 0 1 h₀ h₁

end Redroid.Binder.Txn
