import Redroid.Binder.TxnStacks
import Redroid.Binder.TxnOrder

/-!
# Buffers behind transactions

* `Backed`: a transaction whose `buffer` is set has an allocated buffer. The two may be unlinked on one
  side only while the task that frees the transaction is about to free the buffer (`Hanging`).
* `Backed.exec`: every step keeps it, so it holds in every reachable state (`backed_of_reach`).
-/

namespace Redroid.Binder.Txn

open CallChain Relation

variable {L : Layout} {s s' s₁ : TxnState} {G : Ghost} {t u r : TxnId} {b : BufId} {x y z : ThreadId}
  {T : Transaction} {B : Buffer} {a a' : Actor} {act act' : Act} {rest k m acts : List Act}
  {env : Env} {l : WorkList} {ws : List Work} {op : TxnOp}

/-- The transaction that a task is about to free. -/
def Act.ends : Act → Option TxnId
  | .cleanupTransaction t | .sendFailedReply t | .freeTransaction t => some t
  | _ => none

/-- A task frees `t` next, and then the buffer `b`. -/
def Hanging (s : TxnState) (t : TxnId) (b : BufId) : Prop :=
  ∃ a act rest, s.frames a = act :: rest ∧ act.ends = some t ∧ .freeBuf b ∈ rest

/-- No transaction has the buffer, nor has it one. -/
def Loose (s : TxnState) (b : BufId) : Prop :=
  (∀ B, s.buf b = some B → B.transaction = none) ∧ ∀ t T, s.txn t = some T → T.buffer ≠ some b

/-- The transaction has its buffer, which user space may not free and nobody frees before it. -/
def Held (s : TxnState) (t : TxnId) : Prop :=
  ∃ T b B, s.txn t = some T ∧ T.buffer = some b ∧ s.buf b = some B ∧ B.allowUserFree = false ∧
    (B.transaction = none ∨ ¬ OnList s.freeing b)

structure Backed (s : TxnState) : Prop where
  attached : ∀ {t T b}, s.txn t = some T → T.buffer = some b → ∃ B, s.buf b = some B
  hanging : ∀ {t T b B}, s.txn t = some T → T.buffer = some b → s.buf b = some B →
    B.transaction = none → Hanging s t b
  freeing : ∀ {b}, OnList s.freeing b → ∃ B, s.buf b = some B
  loose : ∀ {a b}, .freeBufAsync b ∈ s.frames a ∨ .freeBufRelease b ∈ s.frames a → Loose s b
  cleanup : ∀ {a t}, .cleanupTransaction t ∈ s.frames a → Held s t
  sends : ∀ {a x t th T b B}, .procTransaction x t th ∈ s.frames a → s.txn t = some T →
    T.buffer = some b → s.buf b = some B → B.targetNode.isSome ∧ (T.oneWay = true → th = none)

/-- Transactions and buffers change or go, and none comes. -/
structure BufStay (s s' : TxnState) : Prop where
  txn : ∀ {t T'}, s'.txn t = some T' → ∃ T, s.txn t = some T ∧ T'.oneWay = T.oneWay ∧
    (T'.buffer = T.buffer ∨ T'.buffer = none)
  buf : ∀ {b B'}, s'.buf b = some B' → ∃ B, s.buf b = some B ∧ B'.targetNode = B.targetNode ∧
    (B'.transaction = B.transaction ∨ B'.transaction = none)
  gone : ∀ {b B}, s.buf b = some B → (∃ B', s'.buf b = some B') ∨
    (¬ OnList s'.freeing b ∧ ∀ t T', s'.txn t = some T' → T'.buffer ≠ some b)

theorem BufStay.of_some (h : BufStay s s') {T' : Transaction} (hT : s'.txn t = some T')
    (hb : T'.buffer = some b) : ∃ T, s.txn t = some T ∧ T.buffer = some b ∧ T'.oneWay = T.oneWay := by
  obtain ⟨T, hT₀, ho, he⟩ := h.txn hT
  rcases he with he | he <;> rw [hb] at he
  · exact ⟨T, hT₀, he.symm, ho⟩
  · cases he

theorem Loose.stay (h : Loose s b) (hst : BufStay s s') : Loose s' b := by
  refine ⟨fun B' hB' => ?_, fun t T' hT' hb => ?_⟩
  · obtain ⟨B, hB, -, he⟩ := hst.buf hB'
    rcases he with he | he
    · rw [he, h.1 B hB]
    · exact he
  · obtain ⟨T, hT, hb, -⟩ := hst.of_some hT' hb
    exact h.2 t T hT hb

/-- A step of the task `a`, which goes on with `m` and `k`. -/
theorem Backed.turn (h : Backed s) (hfr' : s'.frames = Function.update s.frames a (m ++ k))
    (hrest : ∀ act ∈ k, act ∈ s.frames a) (hst : BufStay s s')
    (hends : ∀ t act rest, s.frames a = act :: rest → act.ends = some t → s'.txn t = none ∨
      ∃ act' m', m = act' :: m' ∧ act'.ends = some t ∧ k = rest)
    (hloose : ∀ t T' b B B', s'.txn t = some T' → T'.buffer = some b → s.buf b = some B →
      B.transaction ≠ none → s'.buf b = some B' → B'.transaction = none → Hanging s' t b)
    (hfreeing : ∀ b, OnList s'.freeing b → OnList s.freeing b ∨ ∃ B, s'.buf b = some B)
    (hlate : ∀ b, .freeBufAsync b ∈ m ∨ .freeBufRelease b ∈ m → Loose s' b)
    (hclean : ∀ a' t, .cleanupTransaction t ∈ s.frames a' →
      (a' = a → .cleanupTransaction t ∈ k) → Held s t → Held s' t)
    (hcleanNew : ∀ t, .cleanupTransaction t ∈ m → Held s' t)
    (hsend : ∀ x t th T b B, .procTransaction x t th ∈ m → s.txn t = some T → T.buffer = some b →
      s.buf b = some B → B.targetNode.isSome ∧ (T.oneWay = true → th = none)) : Backed s' := by
  have hmem {a' : Actor} {act' : Act} (hact' : act' ∈ s'.frames a') :
      act' ∈ m ∨ (act' ∈ s.frames a' ∧ (a' = a → act' ∈ k)) := by
    rw [hfr'] at hact'
    rcases eq_or_ne a' a with rfl | hne
    · rw [Function.update_self, List.mem_append] at hact'
      exact hact'.imp_right fun hr => ⟨hrest _ hr, fun _ => hr⟩
    · rw [Function.update_of_ne hne] at hact'
      exact .inr ⟨hact', fun he => absurd he hne⟩
  constructor
  · intro t T' b hT' hb
    obtain ⟨T, hT, hb₀, -⟩ := hst.of_some hT' hb
    obtain ⟨B, hB⟩ := h.attached hT hb₀
    exact (hst.gone hB).resolve_right fun hno => hno.2 t T' hT' hb
  · intro t T' b B' hT' hb hB' hn
    obtain ⟨T, hT, hb₀, -⟩ := hst.of_some hT' hb
    obtain ⟨B, hB, -⟩ := hst.buf hB'
    by_cases hno : B.transaction = none
    · obtain ⟨a₀, act₀, rest₀, hfr₀, he₀, hm⟩ := h.hanging hT hb₀ hB hno
      rcases eq_or_ne a₀ a with rfl | hne
      · rcases hends t act₀ rest₀ hfr₀ he₀ with hnone | ⟨act', m', rfl, he', rfl⟩
        · rw [hnone] at hT'
          cases hT'
        · exact ⟨a₀, act', m' ++ k, by rw [hfr', Function.update_self]; rfl, he',
            List.mem_append_right _ hm⟩
      · exact ⟨a₀, act₀, rest₀, by rw [hfr', Function.update_of_ne hne, hfr₀], he₀, hm⟩
    · exact hloose t T' b B B' hT' hb hB hno hB' hn
  · intro b hb
    rcases hfreeing b hb with hb₀ | hB
    · obtain ⟨B, hB⟩ := h.freeing hb₀
      exact (hst.gone hB).resolve_right fun hno => hno.1 hb
    · exact hB
  · intro a' b hact'
    have key {act' : Act} (hact' : act' ∈ s'.frames a')
        (he : act' = .freeBufAsync b ∨ act' = .freeBufRelease b) : Loose s' b := by
      rcases hmem hact' with hn | ⟨hold, -⟩ <;> rcases he with rfl | rfl
      · exact hlate b (.inl hn)
      · exact hlate b (.inr hn)
      · exact (h.loose (.inl hold)).stay hst
      · exact (h.loose (.inr hold)).stay hst
    exact hact'.elim (fun hact' => key hact' (.inl rfl)) fun hact' => key hact' (.inr rfl)
  · intro a' t hact'
    rcases hmem hact' with hn | ⟨hold, hr⟩
    · exact hcleanNew t hn
    · exact hclean a' t hold hr (h.cleanup hold)
  · intro a' x t th T' b B' hact' hT' hb hB'
    obtain ⟨T, hT, hb₀, ho⟩ := hst.of_some hT' hb
    obtain ⟨B, hB, hn, -⟩ := hst.buf hB'
    rw [hn, ho]
    rcases hmem hact' with hnew | ⟨hold, -⟩
    · exact hsend x t th T b B hnew hT hb₀ hB
    · exact h.sends hold hT hb₀ hB

/-! ## Steps that leave the buffers -/

/-- The buffers, and which transactions have them, stay. -/
structure SameBufs (s s' : TxnState) : Prop where
  txn : ∀ t, (s'.txn t).map (fun T => (T.buffer, T.oneWay)) = (s.txn t).map fun T => (T.buffer, T.oneWay)
  buf : s'.buf = s.buf

theorem SameBufs.of_eq (htxn : s'.txn = s.txn) (hbuf : s'.buf = s.buf) : SameBufs s s' :=
  ⟨fun _ => by rw [htxn], hbuf⟩

theorem SameBufs.exists_txn (h : SameBufs s s') (hT : s.txn t = some T) :
    ∃ T', s'.txn t = some T' ∧ T'.buffer = T.buffer ∧ T'.oneWay = T.oneWay := by
  have := h.txn t
  rw [hT, Option.map_some, Option.map_eq_some_iff] at this
  obtain ⟨T', hT', he⟩ := this
  rw [Prod.mk.injEq] at he
  exact ⟨T', hT', he.1, he.2⟩

theorem SameBufs.symm (h : SameBufs s s') : SameBufs s' s := ⟨fun t => (h.txn t).symm, h.buf.symm⟩

theorem SameBufs.stay (h : SameBufs s s') : BufStay s s' where
  txn hT' := by
    obtain ⟨T, hT, hb, ho⟩ := h.symm.exists_txn hT'
    exact ⟨T, hT, ho.symm, .inl hb.symm⟩
  buf hB' := ⟨_, by rwa [h.buf] at hB', rfl, .inl rfl⟩
  gone hB := .inl ⟨_, by rwa [h.buf]⟩

theorem Held.mono (h : Held s t) (hs : SameBufs s s') (hf : ∀ b, OnList s'.freeing b → OnList s.freeing b ∨
      ∀ T, s.txn t = some T → T.buffer ≠ some b) : Held s' t := by
  obtain ⟨T, b, B, hT, hb, hB, hu, hn⟩ := h
  obtain ⟨T', hT', hb', -⟩ := hs.exists_txn hT
  refine ⟨T', b, B, hT', hb'.trans hb, by rwa [hs.buf], hu, hn.imp_right fun hn ho => ?_⟩
  exact (hf b ho).elim hn fun hne => hne T hT hb

/-- What the acts of a task free. -/
theorem onList_freeing (hfr' : s'.frames = Function.update s.frames a (m ++ k))
    (hrest : ∀ act ∈ k, act ∈ s.frames a)
    (hnew : ∀ act ∈ m, ∀ b, act.frees = some b → OnList s.freeing b) (hb : OnList s'.freeing b) :
    OnList s.freeing b := by
  obtain ⟨a', hb⟩ := hb
  obtain ⟨act, hact, hf⟩ := List.mem_filterMap.mp hb
  rw [hfr'] at hact
  rcases eq_or_ne a' a with rfl | hne
  · rw [Function.update_self, List.mem_append] at hact
    rcases hact with hact | hact
    · exact hnew act hact b hf
    · exact ⟨a', List.mem_filterMap.mpr ⟨act, hrest act hact, hf⟩⟩
  · rw [Function.update_of_ne hne] at hact
    exact ⟨a', List.mem_filterMap.mpr ⟨act, hact, hf⟩⟩

/-- A step of a task that leaves the buffers. -/
theorem Backed.calm (h : Backed s) (hfr' : s'.frames = Function.update s.frames a (m ++ k))
    (hrest : ∀ act ∈ k, act ∈ s.frames a) (hs : SameBufs s s')
    (hends : ∀ t act rest, s.frames a = act :: rest → act.ends = some t → s'.txn t = none ∨
      ∃ act' m', m = act' :: m' ∧ act'.ends = some t ∧ k = rest)
    (hnew : ∀ act ∈ m, ∀ b, act.frees = some b → OnList s.freeing b)
    (hlate : ∀ b, .freeBufAsync b ∈ m ∨ .freeBufRelease b ∈ m → Loose s b)
    (hclean : ∀ t, .cleanupTransaction t ∈ m → Held s t)
    (hsend : ∀ x t th T b B, .procTransaction x t th ∈ m → s.txn t = some T → T.buffer = some b →
      s.buf b = some B → B.targetNode.isSome ∧ (T.oneWay = true → th = none)) : Backed s' := by
  have hf {b : BufId} (hb : OnList s'.freeing b) : OnList s.freeing b := onList_freeing hfr' hrest hnew hb
  refine h.turn hfr' hrest hs.stay hends (fun t T' b B B' _ _ hB hne hB' hn => ?_)
    (fun b hb => .inl (hf hb)) (fun b hb => (hlate b hb).stay hs.stay)
    (fun a' t _ _ hh => hh.mono hs fun b hb => .inl (hf hb))
    (fun t ht => (hclean t ht).mono hs fun b hb => .inl (hf hb)) hsend
  rw [hs.buf, hB] at hB'
  cases hB'
  exact absurd hn hne

/-! ## Every step of a task -/

/-- Acts that free no buffer, clean up no transaction and give none to `binder_proc_transaction`. -/
def Act.plain : Act → Bool
  | .freeBuf _ | .freeBufAsync _ | .freeBufRelease _ | .cleanupTransaction _ | .procTransaction .. => false
  | _ => true

/-- The task goes on to free the transaction that it was about to free. -/
theorem ends_of (hfr : s.frames a = act :: rest)
    (h : act.ends = none ∨ ∃ act' m', m = act' :: m' ∧ act'.ends = act.ends ∧ k = rest) :
    ∀ t act₀ rest₀, s.frames a = act₀ :: rest₀ → act₀.ends = some t → s'.txn t = none ∨
      ∃ act' m', m = act' :: m' ∧ act'.ends = some t ∧ k = rest₀ := by
  intro t act₀ rest₀ hfr₀ he₀
  rw [hfr] at hfr₀
  cases hfr₀
  rcases h with h | ⟨act', m', hm, he, hr⟩
  · rw [h] at he₀
    cases he₀
  · exact .inr ⟨act', m', hm, he.trans he₀, hr⟩

/-- A step of a task that leaves the buffers, to acts that are plain. -/
theorem Backed.quiet (h : Backed s) (hfr : s.frames a = act :: rest)
    (hfr' : s'.frames = Function.update s.frames a (m ++ k)) (hrest : ∀ act ∈ k, act ∈ rest)
    (hs : SameBufs s s') (hm : ∀ act ∈ m, act.plain = true)
    (hends : act.ends = none ∨ ∃ act' m', m = act' :: m' ∧ act'.ends = act.ends ∧ k = rest) :
    Backed s' := by
  refine h.calm hfr' (fun act' hr => hfr ▸ List.mem_cons_of_mem act (hrest act' hr)) hs
    (ends_of hfr hends) (fun act' hact b hb => ?_) (fun b hb => ?_) (fun t ht => ?_)
    fun x t th T b B ht => ?_
  · have := hm act' hact
    cases act' <;> simp_all [Act.plain, Act.frees]
  · rcases hb with hb | hb <;> cases hm _ hb
  · cases hm _ ht
  · cases hm _ ht

theorem SameBufs.setTxn {T' : Transaction} (hT : s.txn t = some T)
    (htxn : s'.txn = Function.update s.txn t (some T')) (hbuf : s'.buf = s.buf)
    (hb : T'.buffer = T.buffer) (ho : T'.oneWay = T.oneWay) : SameBufs s s' := by
  refine ⟨fun u => ?_, hbuf⟩
  rw [htxn]
  rcases eq_or_ne u t with rfl | hne
  · rw [Function.update_self, hT, Option.map_some, Option.map_some, hb, ho]
  · rw [Function.update_of_ne hne]

/-- `binder_pop_transaction_ilocked` leaves the buffers. -/
theorem SameBufs.pop (h : s.pop y t = some s₁) : SameBufs s s₁ ∧ s₁.frames = s.frames := by
  obtain ⟨T, hT, -, -, rfl⟩ := pop_eq h
  exact ⟨.setTxn hT rfl rfl rfl rfl, rfl⟩

theorem SameBufs.trans {s₁ s₂ : TxnState} (h : SameBufs s s₁) (h' : SameBufs s₁ s₂) : SameBufs s s₂ :=
  ⟨fun t => (h'.txn t).trans (h.txn t), h'.buf.trans h.buf⟩

theorem plain_onError {irt : Option TxnId} : ∀ act ∈ TxnState.onError irt, act.plain = true := by
  cases irt <;> simp [TxnState.onError, Act.plain]

/-- A live transaction has its buffer, and nobody frees it. -/
theorem Inv.held (hi : Inv L s) (ht : OnList s.contents t) : Held s t := by
  obtain ⟨p, hp⟩ := ht
  obtain ⟨T, b, B, hl, hno, -⟩ := hi.live hp
  exact ⟨T, b, B, hl.txn, hl.buffer, hl.buf, hl.allowUserFree, .inr hno⟩

theorem Backed.exec_sendAlloc {tp : ProcId} {n : Option NodeId} {irt : Option TxnId}
    {th : Option ThreadId} {oneWay : Bool} (h : Backed s) (hi : Inv L s)
    (hfr : s.frames a = .send x tp n irt th oneWay :: rest) :
    Backed ((s.allocTxn x tp n irt th oneWay).setFrames a (.build x s.nextTxn irt th :: rest)) := by
  obtain ⟨s', hs'⟩ : ∃ s', s' = (s.allocTxn x tp n irt th oneWay).setFrames a
    (.build x s.nextTxn irt th :: rest) := ⟨_, rfl⟩
  have hfr' : s'.frames = Function.update s.frames a ([.build x s.nextTxn irt th] ++ rest) := by rw [hs']; rfl
  have hin : ∀ act ∈ rest, act ∈ s.frames a := fun act hr => hfr ▸ List.mem_cons_of_mem _ hr
  have htxn {u : TxnId} {U : Transaction} (hU : s.txn u = some U) : s'.txn u = some U := by
    rw [hs']
    simp [TxnState.allocTxn, (hi.links.txn_lt hU).ne, hU]
  have hbuf {b : BufId} {B : Buffer} (hB : s.buf b = some B) : s'.buf b = some B := by
    rw [hs']
    simp [TxnState.allocTxn, (hi.links.buf_lt hB).ne, hB]
  have htxn' {u : TxnId} {U : Transaction} (hU : s'.txn u = some U) :
      s.txn u = some U ∨ u = s.nextTxn ∧ U.buffer = some s.nextBuf := by
    rw [hs'] at hU
    rcases eq_or_ne u s.nextTxn with rfl | hne
    · exact .inr ⟨rfl, by simp [TxnState.allocTxn] at hU; rw [← hU]⟩
    · exact .inl (by simpa [TxnState.allocTxn, hne] using hU)
  have hbuf' {b : BufId} {B : Buffer} (hB : s'.buf b = some B) :
      s.buf b = some B ∨ b = s.nextBuf ∧ B.transaction = some s.nextTxn := by
    rw [hs'] at hB
    rcases eq_or_ne b s.nextBuf with rfl | hne
    · exact .inr ⟨rfl, by simp [TxnState.allocTxn] at hB; rw [← hB]⟩
    · exact .inl (by simpa [TxnState.allocTxn, hne] using hB)
  have hmem {a' : Actor} {act' : Act} (hact' : act' ∈ s'.frames a') (hne : act' ≠ .build x s.nextTxn irt th) :
      act' ∈ s.frames a' := by
    rw [hfr'] at hact'
    rcases eq_or_ne a' a with rfl | hne'
    · rw [Function.update_self] at hact'
      exact hin _ ((List.mem_cons.mp hact').resolve_left hne)
    · rwa [Function.update_of_ne hne'] at hact'
  have hfree {b : BufId} (hb : OnList s'.freeing b) : OnList s.freeing b :=
    onList_freeing hfr' hin (by simp [Act.frees]) hb
  have hheld {u : TxnId} (hu : Held s u) : Held s' u := by
    obtain ⟨U, b, B, hU, hb, hB, hf, hn⟩ := hu
    exact ⟨U, b, B, htxn hU, hb, hbuf hB, hf, hn.imp_right fun hn ho => hn (hfree ho)⟩
  rw [← hs']
  constructor
  · intro u U b hU hb
    rcases htxn' hU with hU | ⟨rfl, hb'⟩
    · obtain ⟨B, hB⟩ := h.attached hU hb
      exact ⟨B, hbuf hB⟩
    · rw [hb] at hb'
      cases hb'
      exact ⟨_, by rw [hs']; simp [TxnState.allocTxn]; rfl⟩
  · intro u U b B hU hb hB hn
    rcases hbuf' hB with hB | ⟨rfl, hn'⟩
    · rcases htxn' hU with hU | ⟨rfl, hb'⟩
      · obtain ⟨a₀, act₀, rest₀, hfr₀, he₀, hm⟩ := h.hanging hU hb hB hn
        have hne : a₀ ≠ a := by
          rintro rfl
          rw [hfr] at hfr₀
          cases hfr₀
          cases he₀
        exact ⟨a₀, act₀, rest₀, by rw [hfr', Function.update_of_ne hne, hfr₀], he₀, hm⟩
      · rw [hb] at hb'
        cases hb'
        exact absurd (hi.links.buf_lt hB) (lt_irrefl _)
    · rw [hn] at hn'
      cases hn'
  · intro b hb
    obtain ⟨B, hB⟩ := h.freeing (hfree hb)
    exact ⟨B, hbuf hB⟩
  · intro a' b hact'
    have hl : Loose s b := h.loose (hact'.imp (hmem · (by simp)) (hmem · (by simp)))
    obtain ⟨B₀, hB₀⟩ : ∃ B, s.buf b = some B := by
      refine h.freeing ⟨a', List.mem_filterMap.mpr ?_⟩
      rcases hact' with hact' | hact'
      · exact ⟨_, hmem hact' (by simp), rfl⟩
      · exact ⟨_, hmem hact' (by simp), rfl⟩
    have hne := (hi.links.buf_lt hB₀).ne
    refine ⟨fun B hB => ?_, fun u U hU hb => ?_⟩
    · rcases hbuf' hB with hB | ⟨rfl, -⟩
      · exact hl.1 B hB
      · exact absurd rfl hne
    · rcases htxn' hU with hU | ⟨-, hb'⟩
      · exact hl.2 u U hU hb
      · rw [hb] at hb'
        cases hb'
        exact hne rfl
  · intro a' u hact'
    exact hheld (h.cleanup (hmem hact' (by simp)))
  · intro a' z u thr U b B hact' hU hb hB
    have hold := hmem hact' (by simp)
    obtain ⟨U₀, b₀, B₀, hU₀, hb₀, hB₀, -⟩ := hi.acts hold
    have hU' := htxn hU₀
    rw [hU] at hU'
    cases hU'
    rw [hb] at hb₀
    cases hb₀
    have hB' := hbuf hB₀
    rw [hB] at hB'
    cases hB'
    exact h.sends hold hU₀ hb hB₀

/-! ## Steps that change one transaction and one buffer -/

theorem BufStay.of_update {T' : Option Transaction} {B' : Option Buffer}
    (htxn : s'.txn = Function.update s.txn t T') (hbuf : s'.buf = Function.update s.buf b B')
    (hT : ∀ U, T' = some U → ∃ T, s.txn t = some T ∧ U.oneWay = T.oneWay ∧
      (U.buffer = T.buffer ∨ U.buffer = none))
    (hB : ∀ C, B' = some C → ∃ B, s.buf b = some B ∧ C.targetNode = B.targetNode ∧
      (C.transaction = B.transaction ∨ C.transaction = none))
    (hgone : B' = none → ¬ OnList s'.freeing b ∧ ∀ u U, s'.txn u = some U → U.buffer ≠ some b) :
    BufStay s s' := by
  constructor
  · intro u U hU
    rw [htxn] at hU
    rcases eq_or_ne u t with rfl | hne
    · exact hT U (by rwa [Function.update_self] at hU)
    · exact ⟨U, by rwa [Function.update_of_ne hne] at hU, rfl, .inl rfl⟩
  · intro c C hC
    rw [hbuf] at hC
    rcases eq_or_ne c b with rfl | hne
    · exact hB C (by rwa [Function.update_self] at hC)
    · exact ⟨C, by rwa [Function.update_of_ne hne] at hC, rfl, .inl rfl⟩
  · intro c C hC
    rw [hbuf]
    rcases eq_or_ne c b with rfl | hne
    · rw [Function.update_self]
      cases hB' : B' with
      | none => exact .inr (hgone hB')
      | some C' => exact .inl ⟨C', rfl⟩
    · exact .inl ⟨C, by rwa [Function.update_of_ne hne]⟩

/-- A step of a task that changes the transaction `t` and the buffer `b`. -/
theorem Backed.patch {V : Option Transaction} {B' : Option Buffer} (h : Backed s)
    (hfr' : s'.frames = Function.update s.frames a (m ++ k))
    (hrest : ∀ act ∈ k, act ∈ s.frames a)
    (hends : ∀ t act rest, s.frames a = act :: rest → act.ends = some t → s'.txn t = none ∨
      ∃ act' m', m = act' :: m' ∧ act'.ends = some t ∧ k = rest)
    (htxn : s'.txn = Function.update s.txn t V) (hbuf : s'.buf = Function.update s.buf b B')
    (hT : ∀ U, V = some U → ∃ T, s.txn t = some T ∧ U.oneWay = T.oneWay ∧
      (U.buffer = T.buffer ∨ U.buffer = none))
    (hB : ∀ C, B' = some C → ∃ B, s.buf b = some B ∧ C.targetNode = B.targetNode ∧
      (C.transaction = B.transaction ∨ C.transaction = none))
    (hgone : B' = none → ¬ OnList s'.freeing b ∧ ∀ u U, s'.txn u = some U → U.buffer ≠ some b)
    (hloose : ∀ u U B C, s'.txn u = some U → U.buffer = some b → s.buf b = some B → B' = some C →
      B.transaction ≠ none → C.transaction = none → Hanging s' u b)
    (hfreeing : ∀ c, OnList s'.freeing c → OnList s.freeing c ∨ c = b ∧ ∃ C, B' = some C)
    (hlate : ∀ c, .freeBufAsync c ∈ m ∨ .freeBufRelease c ∈ m → Loose s' c)
    (hclean : ∀ a' u, .cleanupTransaction u ∈ s.frames a' → (a' = a → .cleanupTransaction u ∈ k) →
      s'.txn u = s.txn u ∧ ∀ U, s.txn u = some U → U.buffer ≠ some b)
    (hcleanNew : ∀ u, .cleanupTransaction u ∈ m → Held s' u)
    (hsend : ∀ x u th, .procTransaction x u th ∉ m) : Backed s' := by
  refine h.turn hfr' hrest (.of_update htxn hbuf hT hB hgone) hends (fun u U c B₀ C hU hc hB₀ hne hC hn => ?_)
    (fun c hc => ?_) hlate (fun a' u hu hr hh => ?_) hcleanNew
    fun x u th _ _ _ hact => absurd hact (hsend x u th)
  · rcases eq_or_ne c b with rfl | hcb
    · exact hloose u U B₀ C hU hc hB₀ (by rwa [hbuf, Function.update_self] at hC) hne hn
    · rw [hbuf, Function.update_of_ne hcb, hB₀] at hC
      cases hC
      exact absurd hn hne
  · rcases hfreeing c hc with hc | ⟨rfl, C, hC⟩
    · exact .inl hc
    · exact .inr ⟨C, by rw [hbuf, Function.update_self, hC]⟩
  · obtain ⟨U, c, B, hU, hc, hB, hf, hn⟩ := hh
    obtain ⟨htu, hno⟩ := hclean a' u hu hr
    have hcb : c ≠ b := by
      rintro rfl
      exact hno U hU hc
    refine ⟨U, c, B, htu.trans hU, hc, by rwa [hbuf, Function.update_of_ne hcb], hf, hn.imp_right
      fun hn ho => ?_⟩
    exact (hfreeing c ho).elim hn fun hcb' => hcb hcb'.1

/-- Another transaction has another buffer. -/
theorem Inv.buffer_ne (hi : Inv L s) (hT : s.txn t = some T) (hb : T.buffer = some b) (hne : u ≠ t) :
    ∀ U, s.txn u = some U → U.buffer ≠ some b :=
  fun _ hU hb' => hne (hi.links.inj hU hT hb' hb)

/-- Nobody frees the buffer of a transaction that has not reached user space. -/
theorem Inv.not_freed (hi : Inv L s) (ht : OnList s.contents t) (hT : s.txn t = some T)
    (hb : T.buffer = some b) : ¬ OnList s.freeing b := by
  obtain ⟨p, hp⟩ := ht
  obtain ⟨U, c, C, hl, hno, -⟩ := hi.live hp
  have hU := hl.txn
  rw [hT] at hU
  cases hU
  have hc := hl.buffer
  rw [hb] at hc
  cases hc
  exact hno

/-- The transactions that are cleaned up are on no list, nor does another task hold them. -/
theorem Inv.cleanup_ne (hi : Inv L s) (hu : .cleanupTransaction u ∈ s.frames a)
    (ht : OnList s.contents t) : u ≠ t := by
  rintro rfl
  exact (hi.refs hu (by simp [Act.refs])).2 ht

/-- The heads of the tasks that free nothing. -/
theorem ends_none (hfr : s.frames a = act :: rest) (hact : act.ends = none) :
    ∀ t act₀ rest₀, s.frames a = act₀ :: rest₀ → act₀.ends = some t → s'.txn t = none ∨
      ∃ act' m', m = act' :: m' ∧ act'.ends = some t ∧ k = rest₀ :=
  ends_of hfr (.inl hact)

theorem Backed.exec_freeTransaction (h : Backed s) (hi : Inv L s) (hsim : Sim L s G)
    (hfr : s.frames a = .freeTransaction t :: rest) (hT : s.txn t = some T)
    (hs₁ : (∃ b, T.buffer = some b ∧ s.unlink b = some s₁) ∨ T.buffer = none ∧ s₁ = s) :
    Backed ((s₁.setTxn t none).setFrames a rest) := by
  have hin : ∀ act ∈ rest, act ∈ s.frames a := fun act hr => hfr ▸ List.mem_cons_of_mem _ hr
  have hne {a' : Actor} {u : TxnId} (hu : .cleanupTransaction u ∈ s.frames a')
      (hr : a' = a → .cleanupTransaction u ∈ rest) : u ≠ t := by
    rintro rfl
    have hfree : u ∈ (Act.freeTransaction u).owns := mem_owns_of_refs (by simp [Act.refs])
    have hclean : u ∈ (Act.cleanupTransaction u).owns := mem_owns_of_refs (by simp [Act.refs])
    exact hsim.tasks.other hfr hfree hu hr hclean
  have hends {s' : TxnState} (hnone : s'.txn t = none) : ∀ u act₀ rest₀, s.frames a = act₀ :: rest₀ →
      act₀.ends = some u → s'.txn u = none ∨ ∃ act' m', ([] : List Act) = act' :: m' ∧
        act'.ends = some u ∧ rest = rest₀ := by
    intro u act₀ rest₀ hfr₀ he₀
    rw [hfr] at hfr₀
    cases hfr₀
    cases he₀
    exact .inl hnone
  rcases hs₁ with ⟨b, hb, hs₁⟩ | ⟨hb, rfl⟩
  · obtain ⟨B, hB, hs₁⟩ := Option.bind_eq_some_iff.mp hs₁
    cases hs₁
    have hno {s' : TxnState} (htxn : s'.txn = Function.update s.txn t none) {u : TxnId} {U : Transaction}
        (hU : s'.txn u = some U) : U.buffer ≠ some b := by
      rw [htxn] at hU
      rcases eq_or_ne u t with rfl | hne
      · rw [Function.update_self] at hU
        cases hU
      · exact hi.buffer_ne hT hb hne U (by rwa [Function.update_of_ne hne] at hU)
    refine h.patch (m := []) rfl hin (hends (by simp)) rfl rfl (by simp) ?_ (by simp) ?_
      (fun c hc => .inl (onList_freeing (m := []) rfl hin (by simp) hc)) (by simp)
      (fun a' u hu hr => ⟨?_, hi.buffer_ne hT hb (hne hu hr)⟩) (by simp) (by simp)
    · rintro _ ⟨⟩
      exact ⟨B, hB, rfl, .inr rfl⟩
    · intro u U _ _ hU hub
      exact absurd hub (hno rfl hU)
    · simp [hne hu hr]
  · have hne' (u : TxnId) (U : Transaction) (hU : s₁.txn u = some U) : U.buffer ≠ some s₁.nextBuf :=
      fun hb' => lt_irrefl _ (hi.links.buffer_lt hU hb')
    have htxn {u : TxnId} {U : Transaction} (hU : ((s₁.setTxn t none).setFrames a rest).txn u = some U) :
        s₁.txn u = some U := by
      rcases eq_or_ne u t with rfl | hne
      · simp at hU
      · simpa [hne] using hU
    have hfree {c : BufId} (hc : OnList ((s₁.setTxn t none).setFrames a rest).freeing c) :
        OnList s₁.freeing c := onList_freeing (m := []) rfl hin (by simp) hc
    refine h.patch (m := []) (b := s₁.nextBuf) rfl hin (hends (by simp)) rfl
      (Function.update_eq_self _ _).symm (by simp) (fun C hC => ⟨C, hC, rfl, .inl rfl⟩)
      (fun _ => ⟨fun hb' => lt_irrefl _ (hi.freeing_lt (hfree hb')), fun u U hU => hne' u U (htxn hU)⟩)
      (fun u U _ _ hU hub => absurd hub (hne' u U (htxn hU))) (fun c hc => .inl (hfree hc)) (by simp)
      (fun a' u hu hr => ⟨by simp [hne hu hr], hne' u⟩) (by simp) (by simp)

/-- `binder_transaction` frees the transaction that could not be sent, and its buffer. -/
theorem Backed.exec_unwind {irt : Option TxnId} (h : Backed s) (hi : Inv L s)
    (hfr : s.frames a = .unwind t irt :: rest) (hT : s.txn t = some T) (hb : T.buffer = some b) :
    Backed (((s.setBuf b none).setTxn t none).setFrames a (TxnState.onError irt ++ rest)) := by
  have hin : ∀ act ∈ rest, act ∈ s.frames a := fun act hr => hfr ▸ List.mem_cons_of_mem _ hr
  have hon : OnList s.contents t := ⟨.actor a, by rw [contents_actor hfr]; simp [Act.holds]⟩
  have hfree {c : BufId} (hc : OnList (((s.setBuf b none).setTxn t none).setFrames a
      (TxnState.onError irt ++ rest)).freeing c) : OnList s.freeing c := by
    refine onList_freeing rfl hin (fun act hact c hc => ?_) hc
    cases irt <;> simp_all [TxnState.onError, Act.frees]
  have hno (u : TxnId) (U : Transaction) (hU : (((s.setBuf b none).setTxn t none).setFrames a
      (TxnState.onError irt ++ rest)).txn u = some U) : U.buffer ≠ some b := by
    rcases eq_or_ne u t with rfl | hne
    · simp at hU
    · exact hi.buffer_ne hT hb hne U (by simpa [hne] using hU)
  have hplain : ∀ act ∈ TxnState.onError irt, act.plain = true := plain_onError
  refine h.patch rfl hin (ends_none hfr rfl) rfl rfl (by simp) (by simp) (fun _ => ⟨fun hb' => ?_, hno⟩)
    (by simp) (fun c hc => .inl (hfree hc)) (fun c hc => ?_) (fun a' u hu hr => ⟨?_, ?_⟩) (fun u hu => ?_)
    fun x u th hact => by cases hplain _ hact
  · exact hi.not_freed hon hT hb (hfree hb')
  · rcases hc with hc | hc <;> cases hplain _ hc
  · simp [hi.cleanup_ne hu hon]
  · exact hi.buffer_ne hT hb (hi.cleanup_ne hu hon)
  · cases hplain _ hu

/-- `binder_thread_read` cannot deliver the transaction: it will free the transaction first, and then
the buffer. -/
theorem Backed.exec_deliverFail (h : Backed s) (hi : Inv L s) (hfr : s.frames a = .deliver x t :: rest)
    (hT : s.txn t = some T) (hb : T.buffer = some b) (hB : s.buf b = some B)
    (hrest : k = [] ∨ k = rest) :
    Backed ((s.setBuf b (some { B with transaction := none })).setFrames a
      (.cleanupTransaction t :: .freeBuf b :: k)) := by
  have hin : ∀ act ∈ k, act ∈ s.frames a := by
    rcases hrest with rfl | rfl
    · simp
    · exact fun act hr => hfr ▸ List.mem_cons_of_mem _ hr
  have hon : OnList s.contents t := ⟨.actor a, by rw [contents_actor hfr]; simp [Act.holds]⟩
  have hheld := hi.held hon
  have hne {a' : Actor} {u : TxnId} (hu : .cleanupTransaction u ∈ s.frames a') : u ≠ t := hi.cleanup_ne hu hon
  refine h.patch (m := [.cleanupTransaction t, .freeBuf b]) (t := t) (V := s.txn t) rfl hin
    (ends_none hfr rfl) (Function.update_eq_self _ _).symm rfl (fun U hU => ⟨U, hU, rfl, .inl rfl⟩) ?_
    (by simp) ?_ ?_ (by simp) (fun a' u hu _ => ⟨rfl, hi.buffer_ne hT hb (hne hu)⟩) ?_ (by simp)
  · rintro _ ⟨⟩
    exact ⟨B, hB, rfl, .inr rfl⟩
  · intro u U _ _ hU hub _ _ _ _
    obtain rfl : u = t := by
      by_contra hne
      exact hi.buffer_ne hT hb hne U hU hub
    exact ⟨a, .cleanupTransaction u, .freeBuf b :: k, by simp, rfl, List.mem_cons_self⟩
  · rintro c ⟨a', hc⟩
    obtain ⟨act, hact, hf⟩ := List.mem_filterMap.mp hc
    simp only [TxnState.setFrames_frames, TxnState.setBuf_frames] at hact
    rcases eq_or_ne a' a with rfl | hne'
    · rw [Function.update_self, List.mem_cons, List.mem_cons] at hact
      rcases hact with rfl | rfl | hact
      · cases hf
      · cases hf
        exact .inr ⟨rfl, _, rfl⟩
      · exact .inl ⟨a', List.mem_filterMap.mpr ⟨act, hin act hact, hf⟩⟩
    · rw [Function.update_of_ne hne'] at hact
      exact .inl ⟨a', List.mem_filterMap.mpr ⟨act, hact, hf⟩⟩
  · intro u hu
    rw [List.mem_cons, List.mem_singleton] at hu
    obtain rfl : u = t := by
      rcases hu with hu | hu <;> cases hu
      rfl
    obtain ⟨U, c, C, hU, hc, hC, hf, -⟩ := hheld
    rw [hT] at hU
    cases hU
    rw [hb] at hc
    cases hc
    rw [hB] at hC
    cases hC
    exact ⟨T, b, { B with transaction := none }, hT, hb, by simp, hf, .inl rfl⟩

/-- The delivered transaction is in user space, which may free the buffer. -/
theorem Backed.exec_copy (h : Backed s) (hi : Inv L s) (hfr : s.frames a = .copy x t :: rest)
    (hT : s.txn t = some T) (hb : T.buffer = some b) (hB : s.buf b = some B) :
    Backed ((s.setBuf b (some { B with allowUserFree := true })).setFrames a
      (.delivered x t B.targetNode.isNone :: rest)) := by
  have hin : ∀ act ∈ rest, act ∈ s.frames a := fun act hr => hfr ▸ List.mem_cons_of_mem _ hr
  have hon : OnList s.contents t := ⟨.actor a, by rw [contents_actor hfr]; simp [Act.holds]⟩
  refine h.patch (m := [.delivered x t B.targetNode.isNone]) (t := t) (V := s.txn t) rfl hin
    (ends_none hfr rfl) (Function.update_eq_self _ _).symm rfl (fun U hU => ⟨U, hU, rfl, .inl rfl⟩) ?_
    (by simp) ?_ (fun c hc => .inl (onList_freeing (m := [.delivered x t B.targetNode.isNone]) rfl hin
      (by simp [Act.frees]) hc)) (by simp)
    (fun a' u hu _ => ⟨rfl, hi.buffer_ne hT hb (hi.cleanup_ne hu hon)⟩) (by simp) (by simp)
  · rintro _ ⟨⟩
    exact ⟨B, hB, rfl, .inl rfl⟩
  · rintro u U C _ - - hC ⟨⟩ hno hn
    rw [hB] at hC
    cases hC
    exact absurd hn hno

/-- `binder_free_buf` unlinks the buffer and its transaction. -/
theorem Backed.exec_freeBufLinked (h : Backed s) (hi : Inv L s) (hfr : s.frames a = .freeBuf b :: rest)
    (hB : s.buf b = some B) (ht : B.transaction = some t) (hT : s.txn t = some T) :
    Backed (((s.setTxn t (some { T with buffer := none })).setBuf b
      (some { B with transaction := none })).setFrames a (.freeBufAsync b :: rest)) := by
  have hin : ∀ act ∈ rest, act ∈ s.frames a := fun act hr => hfr ▸ List.mem_cons_of_mem _ hr
  have hon : OnList s.freeing b := ⟨a, by rw [freeing_actor hfr]; simp [Act.frees]⟩
  obtain ⟨T₀, hT₀, hb⟩ := hi.links.link hB ht
  rw [hT] at hT₀
  cases hT₀
  have hno (u : TxnId) (U : Transaction) (hU : (((s.setTxn t (some { T with buffer := none })).setBuf b
      (some { B with transaction := none })).setFrames a (.freeBufAsync b :: rest)).txn u = some U) :
      U.buffer ≠ some b := by
    rcases eq_or_ne u t with rfl | hne
    · simp at hU
      rw [← hU]
      simp
    · exact hi.buffer_ne hT hb hne U (by simpa [hne] using hU)
  have hne {a' : Actor} {u : TxnId} (hu : .cleanupTransaction u ∈ s.frames a') : u ≠ t := by
    rintro rfl
    obtain ⟨U, c, C, hU, hc, hC, -, hn⟩ := h.cleanup hu
    rw [hT] at hU
    cases hU
    rw [hb] at hc
    cases hc
    rw [hB] at hC
    cases hC
    rcases hn with hn | hn
    · rw [ht] at hn
      cases hn
    · exact hn hon
  refine h.patch (m := [.freeBufAsync b]) rfl hin (ends_none hfr rfl) rfl rfl ?_ ?_ (by simp)
    (fun u U _ _ hU hub => absurd hub (hno u U hU)) (fun c hc => ?_) ?_
    (fun a' u hu _ => ⟨by simp [hne hu], hi.buffer_ne hT hb (hne hu)⟩) (by simp) (by simp)
  · rintro _ ⟨⟩
    exact ⟨T, hT, rfl, .inr rfl⟩
  · rintro _ ⟨⟩
    exact ⟨B, hB, rfl, .inr rfl⟩
  · refine .inl (onList_freeing (m := [.freeBufAsync b]) rfl hin ?_ hc)
    rintro act hact c hc
    rw [List.mem_singleton.mp hact] at hc
    cases hc
    exact hon
  · intro c hc
    obtain rfl : c = b := by
      rcases hc with hc | hc
      · cases List.mem_singleton.mp hc
        rfl
      · cases List.mem_singleton.mp hc
    refine ⟨fun C hC => ?_, hno⟩
    simp at hC
    rw [← hC]

/-- The buffer that `binder_free_buf` frees has no transaction. -/
theorem Backed.loose_freeBuf (h : Backed s) (hi : Inv L s) (hfr : s.frames a = .freeBuf b :: rest)
    (hB : s.buf b = some B) (hn : B.transaction = none) : Loose s b := by
  refine ⟨fun C hC => ?_, fun u U hU hb => ?_⟩
  · rw [hB] at hC
    cases hC
    exact hn
  · obtain ⟨a', act', r, hfr', he, hm⟩ := h.hanging hU hb hB hn
    have hm' : b ∈ s.freeing a' := List.mem_filterMap.mpr ⟨_, hfr' ▸ List.mem_cons_of_mem _ hm, rfl⟩
    have hm₀ : b ∈ s.freeing a := List.mem_filterMap.mpr ⟨_, hfr ▸ List.mem_cons_self, rfl⟩
    obtain rfl : a' = a := hi.freed.unique hm' hm₀
    rw [hfr] at hfr'
    cases hfr'
    cases he

theorem Backed.exec_async (h : Backed s) (hfr : s.frames a = .freeBufAsync b :: rest)
    (hfr' : s'.frames = Function.update s.frames a (.freeBufRelease b :: rest)) (hs : SameBufs s s') :
    Backed s' := by
  refine h.calm (m := [.freeBufRelease b]) hfr' (fun act hr => hfr ▸ List.mem_cons_of_mem _ hr) hs
    (ends_none hfr rfl) ?_ ?_ (by simp) (by simp)
  · rintro act hact c hc
    rw [List.mem_singleton.mp hact] at hc
    cases hc
    exact ⟨a, by rw [freeing_actor hfr]; simp [Act.frees]⟩
  · rintro c (hc | hc) <;> cases List.mem_singleton.mp hc
    exact h.loose (.inl (hfr ▸ List.mem_cons_self))

theorem Backed.exec_freeBufRelease (h : Backed s) (hi : Inv L s)
    (hfr : s.frames a = .freeBufRelease b :: rest) : Backed ((s.setBuf b none).setFrames a rest) := by
  have hin : ∀ act ∈ rest, act ∈ s.frames a := fun act hr => hfr ▸ List.mem_cons_of_mem _ hr
  have hl : Loose s b := h.loose (.inr (hfr ▸ List.mem_cons_self))
  have hfree {c : BufId} (hc : OnList ((s.setBuf b none).setFrames a rest).freeing c) : OnList s.freeing c :=
    onList_freeing (m := []) rfl hin (by simp) hc
  have hgone : ¬ OnList ((s.setBuf b none).setFrames a rest).freeing b := by
    rintro ⟨a', hb⟩
    rw [TxnState.freeing_setFrames] at hb
    rcases eq_or_ne a' a with rfl | hne
    · rw [Function.update_self] at hb
      have hnd := hi.freed.nodup a'
      rw [freeing_actor hfr] at hnd
      exact (List.nodup_append.mp hnd).2.2 b (by simp [Act.frees]) b hb rfl
    · rw [Function.update_of_ne hne] at hb
      refine hne (hi.freed.unique hb ?_)
      rw [freeing_actor hfr]
      simp [Act.frees]
  exact h.patch (m := []) (t := s.nextTxn) (V := s.txn s.nextTxn) rfl hin (ends_none hfr rfl)
    (Function.update_eq_self _ _).symm rfl (fun U hU => ⟨U, hU, rfl, .inl rfl⟩) (by simp)
    (fun _ => ⟨hgone, hl.2⟩) (by simp) (fun c hc => .inl (hfree hc)) (by simp)
    (fun a' u hu _ => ⟨rfl, hl.2 u⟩) (by simp) (by simp)

/-- What `build` knows of the buffer. -/
theorem Inv.build_buffer {irt : Option TxnId} {th : Option ThreadId} (hi : Inv L s)
    (hfr : s.frames a = .build x t irt th :: rest) (hT : s.txn t = some T) (hb : T.buffer = some b)
    (hB : s.buf b = some B) : B.targetNode.isSome = irt.isNone := by
  obtain ⟨T₀, b₀, B₀, hT₀, hb₀, hB₀, -, hn, -⟩ := hi.acts (hfr ▸ List.mem_cons_self : .build x t irt th ∈ _)
  rw [hT] at hT₀
  cases hT₀
  rw [hb] at hb₀
  cases hb₀
  rw [hB] at hB₀
  cases hB₀
  exact hn

/-- Every step of a task. -/
theorem Backed.execAct (h : Backed s) (hi : Inv L s) (hsim : Sim L s G) (hfr : s.frames a = act :: rest)
    (he : ActStep L s a rest env act s') : Backed s' := by
  have hin : ∀ act ∈ rest, act ∈ s.frames a := fun act hr => hfr ▸ List.mem_cons_of_mem _ hr
  have hrefl : ∀ act ∈ rest, act ∈ rest := fun _ => id
  have hsame : SameBufs s s := .of_eq rfl rfl
  cases he with
  | checkFail => exact h.quiet (m := []) hfr rfl hrefl (.of_eq rfl rfl) (by simp) (.inl rfl)
  | checkOneWay hne =>
    exact h.quiet (m := [_]) hfr rfl hrefl (.of_eq rfl rfl) (by simp [Act.plain]) (.inl rfl)
  | checkFirst hne hhd hst =>
    exact h.quiet (m := [_]) hfr rfl hrefl (.of_eq rfl rfl) (by simp [Act.plain]) (.inl rfl)
  | checkNested hne hhd hst hT hto hf =>
    exact h.quiet (m := [_]) hfr rfl hrefl (.of_eq rfl rfl) (by simp [Act.plain]) (.inl rfl)
  | replyDead hT hn =>
    exact h.quiet (m := [_]) hfr rfl hrefl (.of_eq rfl rfl) (by simp [Act.plain]) (.inl rfl)
  | replyBad hT hy hst => exact h.quiet (m := []) hfr rfl hrefl (.of_eq rfl rfl) (by simp) (.inl rfl)
  | replyTo hT hy hst =>
    exact h.quiet (m := [_]) hfr rfl hrefl (.of_eq rfl rfl) (by simp [Act.plain]) (.inl rfl)
  | sendFail => exact h.quiet hfr rfl hrefl (.of_eq rfl rfl) plain_onError (.inl rfl)
  | sendAlloc => exact h.exec_sendAlloc hi hfr
  | buildFail => exact h.quiet (m := [_]) hfr rfl hrefl (.of_eq rfl rfl) (by simp [Act.plain]) (.inl rfl)
  | buildReply hd hpop =>
    obtain ⟨hs, hframes⟩ := SameBufs.pop hpop
    exact h.quiet (m := [_]) hfr (by rw [TxnState.setFrames_frames, ← hframes]; rfl) hrefl
      (hs.trans (.of_eq rfl rfl)) (by simp [Act.plain]) (.inl rfl)
  | buildOneWay hT ho =>
    refine h.calm (m := [_]) rfl hin (.of_eq rfl rfl) (ends_none hfr rfl) (by simp [Act.frees]) (by simp)
      (by simp) fun z u th U b B hact hU hb hB => ?_
    cases List.mem_singleton.mp hact
    exact ⟨by rw [hi.build_buffer hfr hU hb hB]; rfl, fun _ => rfl⟩
  | buildCall hT ho =>
    refine h.calm (m := [_]) rfl hin (.setTxn hT rfl rfl rfl rfl) (ends_none hfr rfl)
      (by simp [Act.frees]) (by simp) (by simp) fun z u th U b B hact hU hb hB => ?_
    cases List.mem_singleton.mp hact
    refine ⟨by rw [hi.build_buffer hfr hU hb hB]; rfl, fun ho' => ?_⟩
    rw [hT] at hU
    cases hU
    rw [ho] at ho'
    cases ho'
  | accepted hT hb hB hn he =>
    have hst := (binderProcTransaction_spec he).1
    exact h.quiet (m := []) hfr (by rw [TxnState.setFrames_frames, hst.frames]; rfl) hrefl
      (.of_eq hst.txn hst.buf) (by simp) (.inl rfl)
  | @rejected x t th T b B n s₁ hT hb hB hn he =>
    have hst := (binderProcTransaction_spec he).1
    refine h.quiet (m := (if T.oneWay then [] else [.popTransaction x t]) ++ [.unwind t none]) hfr
      (by rw [TxnState.setFrames_frames, hst.frames, List.append_assoc]; rfl) hrefl
      (.of_eq hst.txn hst.buf) ?_ (.inl rfl)
    split <;> simp [Act.plain]
  | pop hpop =>
    obtain ⟨hs, hframes⟩ := SameBufs.pop hpop
    exact h.quiet (m := []) hfr (by rw [TxnState.setFrames_frames, hframes]; rfl) hrefl
      (hs.trans (.of_eq rfl rfl)) (by simp) (.inl rfl)
  | unwind hT hb => exact h.exec_unwind hi hfr hT hb
  | @failedReply t T y s₁ hT hy hpop =>
    obtain ⟨hs, hframes⟩ := SameBufs.pop hpop
    refine h.quiet (m := [.freeTransaction t]) hfr ?_ hrefl (hs.trans ?_) (by simp [Act.plain])
      (.inr ⟨_, [], rfl, rfl, rfl⟩)
    · rw [TxnState.setFrames_frames, ← hframes]
      split <;> rfl
    · split <;> exact .of_eq rfl rfl
  | failedParent hT hn =>
    refine h.quiet (m := .freeTransaction _ :: TxnState.onError _) hfr rfl hrefl (.of_eq rfl rfl) ?_
      (.inr ⟨_, _, rfl, rfl, rfl⟩)
    rintro act hact
    rcases List.mem_cons.mp hact with rfl | hact
    · rfl
    · exact plain_onError act hact
  | freeLinked hT hp hb hs₁ => exact h.exec_freeTransaction hi hsim hfr hT (.inl ⟨_, hb, hs₁⟩)
  | freeUnlinked hT ho =>
    exact h.exec_freeTransaction hi hsim hfr hT (.inr ⟨ho.elim (hi.links.toProc hT) id, rfl⟩)
  | cleanupCall hT hb hB hn ho =>
    exact h.quiet (m := [_]) hfr rfl hrefl (.of_eq rfl rfl) (by simp [Act.plain])
      (.inr ⟨_, [], rfl, rfl, rfl⟩)
  | cleanupOther hT hb hB ho =>
    exact h.quiet (m := [_]) hfr rfl hrefl (.of_eq rfl rfl) (by simp [Act.plain])
      (.inr ⟨_, [], rfl, rfl, rfl⟩)
  | freeBuf hB hn =>
    refine h.calm (m := [_]) rfl hin (.of_eq rfl rfl) (ends_none hfr rfl) ?_ ?_ (by simp) (by simp)
    · rintro act hact c hc
      rw [List.mem_singleton.mp hact] at hc
      cases hc
      exact ⟨a, by rw [freeing_actor hfr]; simp [Act.frees]⟩
    · rintro c (hc | hc) <;> cases List.mem_singleton.mp hc
      exact h.loose_freeBuf hi hfr hB hn
  | freeBufLinked hB ht hT => exact h.exec_freeBufLinked hi hfr hB ht hT
  | asyncLast hB ha hn hl => exact h.exec_async hfr rfl (.of_eq rfl rfl)
  | @asyncNext b B n w ws hB ha hn hf hl =>
    have hst := (selectThread_spec (s := (s.setTodo (.node n) ws).enqueue (.proc B.proc) w) B.proc).1
    exact h.exec_async hfr (by rw [TxnState.setFrames_frames, hst.frames]; rfl) (.of_eq hst.txn hst.buf)
  | asyncNot hB hno => exact h.exec_async hfr rfl (.of_eq rfl rfl)
  | freeBufRelease hB hn => exact h.exec_freeBufRelease hi hfr
  | readRetry hp => exact h.quiet (m := [_]) hfr rfl hrefl (.of_eq rfl rfl) (by simp [Act.plain]) (.inl rfl)
  | woken => exact h.quiet (m := [_]) hfr rfl hrefl (.of_eq rfl rfl) (by simp [Act.plain]) (.inl rfl)
  | noWait => exact h.quiet (m := []) hfr rfl hrefl (.of_eq rfl rfl) (by simp) (.inl rfl)
  | waitProc hp => exact h.quiet (m := [_]) hfr rfl hrefl (.of_eq rfl rfl) (by simp [Act.plain]) (.inl rfl)
  | waitThread hp => exact h.quiet (m := [_]) hfr rfl hrefl (.of_eq rfl rfl) (by simp [Act.plain]) (.inl rfl)
  | wake hg =>
    refine h.quiet hfr rfl hrefl (.of_eq rfl rfl) ?_ (.inl rfl)
    rcases hg with rfl | rfl <;> simp [Act.plain]
  | readNothing hg =>
    refine h.quiet hfr rfl hrefl (.of_eq rfl rfl) ?_ (.inl rfl)
    rcases hg with rfl | rfl <;> simp [Act.plain]
  | readOther hl htodo hg =>
    refine h.quiet hfr rfl hrefl (.of_eq rfl rfl) ?_ (.inl rfl)
    rcases hg with rfl | rfl <;> simp [Act.plain]
  | readTransaction hl htodo =>
    exact h.quiet (m := [_, _]) hfr rfl hrefl (.of_eq rfl rfl) (by simp [Act.plain]) (.inl rfl)
  | deliver =>
    exact h.quiet (m := [_]) (k := []) hfr rfl (by simp) (.of_eq rfl rfl) (by simp [Act.plain]) (.inl rfl)
  | deliverFail hT hb hB =>
    refine h.exec_deliverFail hi hfr hT hb hB ?_
    split
    · exact .inl rfl
    · exact .inr rfl
  | copy hT hb hB => exact h.exec_copy hi hfr hT hb hB
  | @copyFail x t hok =>
    refine h.calm (m := [_]) rfl hin (.of_eq rfl rfl) (ends_none hfr rfl) (by simp [Act.frees]) (by simp) ?_
      (by simp)
    rintro u hu
    cases List.mem_singleton.mp hu
    exact hi.held ⟨.actor a, by rw [contents_actor hfr]; simp [Act.holds]⟩
  | deliveredCall hT ho =>
    exact h.quiet (m := []) hfr rfl hrefl (.setTxn hT rfl rfl rfl rfl) (by simp) (.inl rfl)
  | deliveredOther hT ho =>
    exact h.quiet (m := [_]) hfr rfl hrefl (.of_eq rfl rfl) (by simp [Act.plain]) (.inl rfl)
  | releaseDone hl => exact h.quiet (m := []) hfr rfl hrefl (.of_eq rfl rfl) (by simp) (.inl rfl)
  | @releaseTransaction l t ws hl =>
    refine h.calm (m := [_, _]) rfl hin (.of_eq rfl rfl) (ends_none hfr rfl) (by simp [Act.frees]) (by simp)
      ?_ (by simp)
    rintro u hu
    rcases List.mem_cons.mp hu with hu | hu
    · cases hu
      exact hi.held ⟨.list l, by simp [TxnState.contents, hl, Work.txn?]⟩
    · cases List.mem_singleton.mp hu
  | releaseOther hl => exact h.quiet (m := [_]) hfr rfl hrefl (.of_eq rfl rfl) (by simp [Act.plain]) (.inl rfl)
  | nodeRelease => exact h.quiet (m := []) hfr rfl hrefl (.of_eq rfl rfl) (by simp) (.inl rfl)

/-! ## Every step -/

/-- No task loses its next act when an ioctl starts. -/
theorem ends_idle (hfr : s.frames a = []) : ∀ t act rest, s.frames a = act :: rest → act.ends = some t →
    s'.txn t = none ∨ ∃ act' m', m = act' :: m' ∧ act'.ends = some t ∧ k = rest := by
  intro t act rest hfr'
  rw [hfr] at hfr'
  cases hfr'

/-- An ioctl starts, or another part of the release of a process. -/
theorem Backed.start (h : Backed s) (hfr : s.frames a = []) (hfr' : s'.frames = Function.update s.frames a m)
    (hs : SameBufs s s') (hm : ∀ act ∈ m, act.plain = true) : Backed s' := by
  refine h.calm (m := m) (k := []) (by rw [hfr', List.append_nil]) (by simp) hs (ends_idle hfr)
    (fun act hact b hb => ?_) (fun b hb => ?_) (fun t ht => ?_) fun x t th T b B ht => ?_
  · have := hm act hact
    cases act <;> simp_all [Act.plain, Act.frees]
  · rcases hb with hb | hb <;> cases hm _ hb
  · cases hm _ ht
  · cases hm _ ht

/-- Something else changes. -/
theorem Backed.other (h : Backed s) (hfr' : s'.frames = s.frames) (hs : SameBufs s s') : Backed s' := by
  have hfree {b : BufId} : OnList s'.freeing b → OnList s.freeing b := by
    rintro ⟨a, hb⟩
    exact ⟨a, by rwa [TxnState.freeing, hfr'] at hb⟩
  constructor
  · intro t T' b hT' hb
    obtain ⟨T, hT, hb', -⟩ := hs.symm.exists_txn hT'
    rw [hs.buf]
    exact h.attached hT (hb'.trans hb)
  · intro t T' b B hT' hb hB hn
    obtain ⟨T, hT, hb', -⟩ := hs.symm.exists_txn hT'
    rw [hs.buf] at hB
    obtain ⟨a, act, rest, hfr, he, hm⟩ := h.hanging hT (hb'.trans hb) hB hn
    exact ⟨a, act, rest, by rw [hfr', hfr], he, hm⟩
  · intro b hb
    rw [hs.buf]
    exact h.freeing (hfree hb)
  · intro a b hact
    rw [hfr'] at hact
    exact (h.loose hact).stay hs.stay
  · intro a t hact
    rw [hfr'] at hact
    exact (h.cleanup hact).mono hs fun b hb => .inl (hfree hb)
  · intro a x t th T' b B hact hT' hb hB
    rw [hfr'] at hact
    obtain ⟨T, hT, hb', ho⟩ := hs.symm.exists_txn hT'
    rw [hs.buf] at hB
    rw [← ho]
    exact h.sends hact hT (hb'.trans hb) hB

/-- `BC_FREE_BUFFER`: the buffer is in user space, so that no transaction to clean up has it. -/
theorem Backed.exec_freeBuffer (h : Backed s) (hfr : s.frames a = []) (hB : s.buf b = some B)
    (hf : B.allowUserFree = true) :
    Backed ((s.setBuf b (some { B with allowUserFree := false })).setFrames a [.freeBuf b]) := by
  refine h.patch (m := [.freeBuf b]) (k := []) (t := s.nextTxn) (V := s.txn s.nextTxn) rfl (by simp)
    (ends_idle hfr) (Function.update_eq_self _ _).symm rfl (fun U hU => ⟨U, hU, rfl, .inl rfl⟩) ?_ (by simp)
    ?_ ?_ (by simp) (fun a' u hu _ => ⟨rfl, fun U hU hb => ?_⟩) (by simp) (by simp)
  · rintro _ ⟨⟩
    exact ⟨B, hB, rfl, .inl rfl⟩
  · rintro u U C _ - - hC ⟨⟩ hno hn
    rw [hB] at hC
    cases hC
    exact absurd hn hno
  · rintro c ⟨a', hc⟩
    rw [TxnState.freeing_setFrames] at hc
    rcases eq_or_ne a' a with rfl | hne
    · rw [Function.update_self] at hc
      cases List.mem_singleton.mp hc
      exact .inr ⟨rfl, _, rfl⟩
    · rw [Function.update_of_ne hne] at hc
      exact .inl ⟨a', hc⟩
  · obtain ⟨U', c, C, hU', hc, hC, hf', -⟩ := h.cleanup hu
    rw [hU] at hU'
    cases hU'
    rw [hb] at hc
    cases hc
    rw [hB] at hC
    cases hC
    rw [hf] at hf'
    cases hf'

/-- One turn of the loop of `binder_thread_release`. -/
theorem Backed.stackTurn {o : Option TxnId} (h : Backed s) (hi : Inv L s) (hfr : s.frames a = [])
    (ht : StackTurn x s t s₁ o)
    (hclean : ∀ T a', s.txn t = some T → T.toThread = some x → .cleanupTransaction t ∉ s.frames a') :
    Backed s₁ := by
  cases ht with
  | served T b B hT hx hb hB =>
    have hfr' : s.frames = Function.update s.frames a ([] ++ []) := by
      rw [List.append_nil, ← hfr, Function.update_eq_self]
    have hno (u : TxnId) (U : Transaction) (hU : ((s.setBuf b (some { B with transaction := none })).setTxn t
        (some { T with toProc := none, toThread := none, buffer := none })).txn u = some U) :
        U.buffer ≠ some b := by
      rcases eq_or_ne u t with rfl | hne
      · simp at hU
        rw [← hU]
        simp
      · exact hi.buffer_ne hT hb hne U (by simpa [hne] using hU)
    have hne {a' : Actor} {u : TxnId} (hu : .cleanupTransaction u ∈ s.frames a') : u ≠ t := by
      rintro rfl
      exact hclean T a' hT hx hu
    refine h.patch hfr' (by simp) (ends_idle hfr) rfl rfl ?_ ?_ (by simp)
      (fun u U _ _ hU hub => absurd hub (hno u U hU)) (fun c hc => .inl hc) (by simp)
      (fun a' u hu _ => ⟨by simp [hne hu], hi.buffer_ne hT hb (hne hu)⟩) (by simp) (by simp)
    · rintro _ ⟨⟩
      exact ⟨T, hT, rfl, .inr rfl⟩
    · rintro _ ⟨⟩
      exact ⟨B, hB, rfl, .inr rfl⟩
  | unlinked T hT hx hb => exact h.other rfl (.setTxn hT rfl rfl hb.symm rfl)
  | sent T hT hx hf => exact h.other rfl (.setTxn hT rfl rfl rfl rfl)

/-- How far the loop of `binder_thread_release` has come: it has taken `l₁` off, and `l₂` is left. -/
structure Leaving (L : Layout) (x : ThreadId) (s s₁ : TxnState) (l₁ l₂ : List (Entry TxnId)) : Prop where
  unwound : Unwound x s s₁ l₁
  inv : Inv L s₁
  stackable : ∀ u, l₂.head?.map Entry.id = some u → Stackable s₁.contents s₁ x u
  backed : Backed s₁

theorem Leaving.start (h : Backed s) (hi : Inv L s) (hsim : Sim L s G) (hd : (s.thread x).isDead = false) :
    Leaving L x s (s.setThread x { s.thread x with isDead := true }) [] (G.net.stack x) := by
  refine ⟨⟨fun u => ?_, fun {b B} hB => ⟨B, hB, rfl, rfl⟩, rfl, rfl, rfl, rfl⟩, ?_, fun u hu => ?_,
    h.other rfl (.of_eq rfl rfl)⟩
  · cases hT : s.txn u <;> simp [hT, Released]
  · refine hi.other ⟨rfl, rfl, fun z => ?_, rfl, rfl⟩ rfl (fun _ => rfl) rfl
    rcases eq_or_ne z x with rfl | hne
    · simp
    · simp [hne]
  · rw [← hsim.data.top hd] at hu
    exact hi.parents.stack hu

/-- One turn of the loop. -/
theorem Leaving.turn {l₁ l₂ : List (Entry TxnId)} {e : Entry TxnId} {s₂ : TxnState} {o : Option TxnId}
    (h : Leaving L x s s₁ l₁ (e :: l₂)) (hsim : Sim L s G) (hfr : s.frames a = [])
    (hl : G.net.stack x = l₁ ++ e :: l₂) (ht : StackTurn x s₁ e.id s₂ o) :
    o = l₂.head?.map Entry.id ∧ Leaving L x s s₂ (l₁ ++ [e]) l₂ := by
  obtain ⟨ho, hu⟩ := hsim.stackTurn hl h.unwound ht
  obtain ⟨hi, hst⟩ := h.inv.turn (h.stackable _ rfl) ht
  refine ⟨ho, hu, hi, fun u hu => hst u (ho.trans hu), ?_⟩
  refine h.backed.stackTurn h.inv (by rw [h.unwound.frames, hfr]) ht fun T a' hT hx hact => ?_
  -- what the thread serves is with no task
  obtain ⟨T₀, -, hT₀, he⟩ := hsim.entry hl h.unwound
  rw [hT₀, Option.some.injEq] at hT
  subst hT
  rw [h.unwound.frames] at hact
  rcases he with ⟨he, -⟩ | ⟨-, hto, -⟩
  · have hserved := hsim.ok.serve_iff.mp (show .serve e.id ∈ G.net.stack x by rw [hl, ← he]; simp)
    rw [hsim.tasks.status hact (mem_owns_of_refs (by simp [Act.refs]))] at hserved
    cases hserved
  · exact hto hx

/-- `binder_thread_release`. -/
theorem Backed.exit {fuel : Nat} (h : Backed s) (hi : Inv L s) (hsim : Sim L s G) (hfr : s.frames a = [])
    (he : s.threadRelease a x fuel = some s') : Backed s' := by
  obtain ⟨hd, s₁, hs₁, g, hg, rfl⟩ := threadRelease_eq he
  rw [hsim.data.top hd] at hs₁
  have hmain := releaseStack_rule (I := fun s₂ o => ∃ l₁ l₂, G.net.stack x = l₁ ++ l₂ ∧
    o = l₂.head?.map Entry.id ∧ Leaving L x s s₂ l₁ l₂) ?_ ⟨[], _, rfl, rfl, .start h hi hsim hd⟩ hs₁
  · obtain ⟨l₁, l₂, -, -, hu⟩ := hmain
    refine hu.backed.start (a := a) (m := g) (by rw [hu.unwound.frames, hfr]) rfl (.of_eq rfl rfl)
      fun act hact => ?_
    rcases hg act hact with rfl | ⟨t, T, rfl, -⟩ <;> rfl
  · rintro s₂ t s₃ o ⟨l₁, l₂, hl, ho, hu⟩ hturn
    cases l₂ with
    | nil => cases ho
    | cons e l₂ =>
      obtain rfl : t = e.id := Option.some.inj ho
      obtain ⟨ho', hu'⟩ := hu.turn hsim hfr hl hturn
      exact ⟨l₁ ++ [e], l₂, by rw [hl, List.append_assoc]; rfl, ho', hu'⟩

/-- Every step. -/
theorem Backed.exec (h : Backed s) (hi : Inv L s) (hsim : Sim L s G) (he : s.exec L op = some s') :
    Backed s' := by
  cases op with
  | transaction x n oneWay =>
    simp only [TxnState.exec, bind, Option.bind_eq_some_iff, Option.guard_eq_some', exists_const] at he
    obtain ⟨hidle, tp, -, he⟩ := he
    cases he
    exact h.start (frames_of_idle hidle) rfl (.of_eq rfl rfl) (by simp [Act.plain])
  | reply x oneWay =>
    simp only [TxnState.exec, bind, Option.bind_eq_some_iff, Option.guard_eq_some', exists_const] at he
    obtain ⟨hidle, irt, -, T, -, -, he⟩ := he
    cases he
    exact h.start (frames_of_idle hidle) rfl (.of_eq rfl rfl) (by simp [Act.plain])
  | read x =>
    simp only [TxnState.exec, bind, Option.bind_eq_some_iff, Option.guard_eq_some', exists_const] at he
    obtain ⟨hidle, he⟩ := he
    cases he
    exact h.start (frames_of_idle hidle) rfl (.of_eq rfl rfl) (by simp [Act.plain])
  | freeBuffer x b =>
    simp only [TxnState.exec, bind, Option.bind_eq_some_iff, Option.guard_eq_some', exists_const] at he
    obtain ⟨hidle, B, hB, -, hf, he⟩ := he
    cases he
    exact h.exec_freeBuffer (frames_of_idle hidle) hB hf
  | threadExit x fuel =>
    simp only [TxnState.exec, bind, Option.bind_eq_some_iff, Option.guard_eq_some', exists_const] at he
    exact h.exit hi hsim (frames_of_idle he.1) he.2
  | procDeath p =>
    cases he
    exact h.other rfl (.of_eq rfl rfl)
  | releaseThread p x fuel =>
    simp only [TxnState.exec, bind, Option.bind_eq_some_iff, Option.guard_eq_some', exists_const,
      TxnState.workerIdle, Bool.and_eq_true, List.isEmpty_iff] at he
    exact h.exit hi hsim he.1.1 he.2.2.2
  | releaseNode p n =>
    simp only [TxnState.exec, bind, Option.bind_eq_some_iff, Option.guard_eq_some', exists_const,
      TxnState.workerIdle, Bool.and_eq_true, List.isEmpty_iff] at he
    obtain ⟨⟨hfr, -⟩, -, he⟩ := he
    cases he
    exact h.start hfr rfl (.of_eq rfl rfl) (by simp [Act.plain])
  | releaseTodo p =>
    simp only [TxnState.exec, bind, Option.bind_eq_some_iff, Option.guard_eq_some', exists_const,
      TxnState.workerIdle, Bool.and_eq_true, List.isEmpty_iff] at he
    obtain ⟨⟨hfr, -⟩, he⟩ := he
    cases he
    exact h.start hfr rfl (.of_eq rfl rfl) (by simp [Act.plain])
  | addProcWork p type =>
    cases he
    exact h.other rfl (.of_eq rfl rfl)
  | addThreadWork x type deferred =>
    simp only [TxnState.exec, bind, Option.bind_eq_some_iff, Option.guard_eq_some', exists_const] at he
    obtain ⟨-, he⟩ := he
    cases he
    cases deferred <;> exact h.other rfl (.of_eq rfl rfl)
  | dropWork l type =>
    cases he
    exact h.other rfl (.of_eq rfl rfl)
  | run a env =>
    simp only [TxnState.exec] at he
    split at he
    · cases he
    · rename_i act rest hfr
      exact h.execAct hi hsim hfr (execAct_cases he)

theorem backed_start : Backed (Txn.start L) := by
  constructor <;> simp [Txn.start, OnList, TxnState.freeing]

theorem backed_of_reach (h : (txnSys L).Reach s) : Backed s := by
  refine h.inv (I := fun s => (txnSys L).Reach s ∧ Backed s) ?_ ?_ |>.2
  · rintro _ rfl
    exact ⟨.init rfl, backed_start⟩
  · rintro s op s' ⟨hr, hb⟩ he
    obtain ⟨hi, -, G, hsim⟩ := sim_of_reach hr
    exact ⟨hr.next he, hb.exec hi hsim he⟩

end Redroid.Binder.Txn
