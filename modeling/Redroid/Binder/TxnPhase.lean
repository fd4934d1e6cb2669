import Redroid.Binder.TxnSched

/-!
# The life of a transaction buffer

From `binder_alloc_new_buf` to `binder_alloc_free_buf` a buffer goes through phases: its transaction
is being sent, is queued on a work list, is being read; user space has it; it is being freed; the
next transaction of its node has gone on and it is released.

* `InPhase`: the phase, read off the state. A buffer is in at most one (`InPhase.unique`).
* `BufStep`: what a step can do to the phases, to `has_async_transaction` and to the queues of the
  nodes. A buffer that leaves its phase and enters no other is lost: nobody will free it.
* `exec_bufStep`: every step of the system is one of these.
-/

namespace Redroid.Binder.Txn

inductive Phase where
  | sending (t : TxnId)
  | queued (l : WorkList) (t : TxnId)
  | reading (t : TxnId)
  | user
  | freeing
  | released
  deriving DecidableEq, Repr

/-- A task has the token. -/
def Acting (s : TxnState) (k : Token) : Prop := ∃ a, ∃ act ∈ s.frames a, act.token = some k

/-- `buffer->transaction`. -/
def Linked (s : TxnState) (b : BufId) (t : TxnId) : Prop :=
  ∃ B, s.buf b = some B ∧ B.transaction = some t

/-- The buffer is allocated and in this phase. -/
def InPhase (s : TxnState) (b : BufId) : Phase → Prop
  | .sending t => Linked s b t ∧ Acting s (.sending t)
  | .queued l t => Linked s b t ∧ .transaction t ∈ s.todo l
  | .reading t => Linked s b t ∧ Acting s (.reading t)
  | .user => ∃ B, s.buf b = some B ∧ B.allowUserFree = true
  | .freeing => (s.buf b).isSome ∧ Acting s (.freeing b)
  | .released => (s.buf b).isSome ∧ Acting s (.released b)

/-- What a buffer is for; this does not change while it is allocated. -/
def Buffer.kind (B : Buffer) : ProcId × Bool × Option NodeId :=
  (B.proc, B.asyncTransaction, B.targetNode)

variable {L : Layout} {s s' s₁ : TxnState} {t u : TxnId} {b b' : BufId} {x y : ThreadId}
  {T : Transaction} {B : Buffer} {a : Actor} {act : Act} {rest g : List Act} {env : Env}
  {l : WorkList} {ws : List Work} {op : TxnOp} {k : Token} {n : NodeId} {ph ph' : Phase}
  {procWork : Bool}

/-! ## Tokens -/

/-- The transaction or the buffer of a token. -/
theorem token_cases (h : act.token = some k) :
    (∃ t, act.holds = some t ∧ (k = .sending t ∨ k = .reading t)) ∨
      ∃ b, act.frees = some b ∧ (k = .freeing b ∨ k = .released b) := by
  cases act <;> simp only [Act.token, Option.some.injEq, reduceCtorEq] at h <;> subst h <;>
    simp [Act.holds, Act.frees]

theorem mem_contents_of_token (hact : act ∈ s.frames a)
    (h : act.token = some (.sending t) ∨ act.token = some (.reading t)) :
    t ∈ s.contents (.actor a) := by
  refine List.mem_filterMap.mpr ⟨act, hact, ?_⟩
  rcases h with h | h <;> obtain ⟨u, hu, he | he⟩ | ⟨b, -, he | he⟩ := token_cases h <;> cases he <;>
    exact hu

theorem mem_freeing_of_token (hact : act ∈ s.frames a)
    (h : act.token = some (.freeing b) ∨ act.token = some (.released b)) : b ∈ s.freeing a := by
  refine List.mem_filterMap.mpr ⟨act, hact, ?_⟩
  rcases h with h | h <;> obtain ⟨u, -, he | he⟩ | ⟨c, hc, he | he⟩ := token_cases h <;> cases he <;>
    exact hc

theorem Acting.onList (h : Acting s (.sending t) ∨ Acting s (.reading t)) :
    OnList s.contents t := by
  rcases h with ⟨a, act, hact, h⟩ | ⟨a, act, hact, h⟩
  · exact ⟨_, mem_contents_of_token hact (.inl h)⟩
  · exact ⟨_, mem_contents_of_token hact (.inr h)⟩

theorem Acting.onFreeing (h : Acting s (.freeing b) ∨ Acting s (.released b)) :
    OnList s.freeing b := by
  rcases h with ⟨a, act, hact, h⟩ | ⟨a, act, hact, h⟩
  · exact ⟨_, mem_freeing_of_token hact (.inl h)⟩
  · exact ⟨_, mem_freeing_of_token hact (.inr h)⟩

theorem mem_contents_list : t ∈ s.contents (.list l) ↔ .transaction t ∈ s.todo l := by
  simp only [TxnState.contents, List.mem_filterMap]
  constructor
  · rintro ⟨w, hw, he⟩
    cases w with
    | transaction u => cases he; exact hw
    | other => cases he
  · exact fun h => ⟨_, h, rfl⟩

section Tokens

variable (hi : Inv L s) (hfr : s.frames a = act :: rest)
include hi hfr

/-- No other act of a task has the token of the next act. -/
theorem token_fresh {a' : Actor} {act' : Act} (hk : act.token = some k)
    (hact' : a' = a ∧ act' ∈ rest ∨ a' ≠ a ∧ act' ∈ s.frames a') : act'.token ≠ some k := by
  intro hk'
  have hact : act ∈ s.frames a := hfr ▸ List.mem_cons_self
  obtain ⟨t, ht, hkt⟩ | ⟨b, hb, hkb⟩ := token_cases hk
  · have ht' : act'.holds = some t := by
      rcases hkt with rfl | rfl <;> obtain ⟨u, hu, he | he⟩ | ⟨c, -, he | he⟩ := token_cases hk' <;>
        cases he <;> exact hu
    rcases hact' with ⟨-, hact'⟩ | ⟨hne, hact'⟩
    · exact hi.holds_not_rest hfr ht (List.mem_filterMap.mpr ⟨act', hact', ht'⟩)
    · have := hi.placed.unique (a := t) (p := .actor a') (q := .actor a)
        (List.mem_filterMap.mpr ⟨act', hact', ht'⟩) (List.mem_filterMap.mpr ⟨act, hact, ht⟩)
      cases this
      exact hne rfl
  · have hb' : act'.frees = some b := by
      rcases hkb with rfl | rfl <;> obtain ⟨u, -, he | he⟩ | ⟨c, hc, he | he⟩ := token_cases hk' <;>
        cases he <;> exact hc
    rcases hact' with ⟨-, hact'⟩ | ⟨hne, hact'⟩
    · have := hi.freed.nodup a
      rw [freeing_actor hfr, hb] at this
      exact (List.nodup_cons.mp this).1 (List.mem_filterMap.mpr ⟨act', hact', hb'⟩)
    · exact hne (hi.freed.unique (a := b) (List.mem_filterMap.mpr ⟨act', hact', hb'⟩)
        (List.mem_filterMap.mpr ⟨act, hact, hb⟩))

/-- The tokens after the task `a` has gone on with `g`. -/
theorem acting_iff {z : List Act}
    (hfr' : s'.frames = Function.update s.frames a (g ++ z)) (hrest : z.Sublist rest)
    (hdrop : ∀ act' ∈ rest, act' ∈ z ∨ act'.token = none) :
    Acting s' k ↔ (∃ act' ∈ g, act'.token = some k) ∨ Acting s k ∧ act.token ≠ some k := by
  constructor
  · rintro ⟨a', act', hact', hk⟩
    rw [hfr'] at hact'
    rcases eq_or_ne a' a with rfl | hne
    · rw [Function.update_self, List.mem_append] at hact'
      rcases hact' with hnew | hold
      · exact .inl ⟨act', hnew, hk⟩
      · have hin := hrest.subset hold
        exact .inr ⟨⟨a', act', hfr ▸ List.mem_cons_of_mem act hin, hk⟩,
          fun h => token_fresh hi hfr h (.inl ⟨rfl, hin⟩) hk⟩
    · rw [Function.update_of_ne hne] at hact'
      exact .inr ⟨⟨a', act', hact', hk⟩, fun h => token_fresh hi hfr h (.inr ⟨hne, hact'⟩) hk⟩
  · rintro (⟨act', hnew, hk⟩ | ⟨⟨a', act', hact', hk⟩, hne⟩)
    · exact ⟨a, act', by rw [hfr', Function.update_self]; exact List.mem_append_left _ hnew, hk⟩
    · rcases eq_or_ne a' a with rfl | hna
      · rw [hfr, List.mem_cons] at hact'
        rcases hact' with rfl | hact'
        · exact absurd hk hne
        · rcases hdrop act' hact' with hin | hnone
          · exact ⟨a', act', by rw [hfr', Function.update_self]; exact List.mem_append_right _ hin, hk⟩
          · rw [hnone] at hk; cases hk
      · exact ⟨a', act', by rw [hfr', Function.update_of_ne hna]; exact hact', hk⟩

/-- The task has the same token as before, or none as before. -/
theorem acting_same (hfr' : s'.frames = Function.update s.frames a (g ++ rest))
    (hnew : ∀ k, (∃ act' ∈ g, act'.token = some k) ↔ act.token = some k) :
    ∀ k, Acting s' k ↔ Acting s k := by
  intro k
  rw [acting_iff hi hfr hfr' (.refl _) fun _ h => .inl h, hnew]
  constructor
  · rintro (h | h)
    · exact ⟨a, act, hfr ▸ List.mem_cons_self, h⟩
    · exact h.1
  · intro h
    by_cases hk : act.token = some k
    · exact .inl hk
    · exact .inr ⟨h, hk⟩

end Tokens

/-! ## Phases -/

theorem Linked.txn (hi : Inv L s) (h : Linked s b t) : ∃ T, s.txn t = some T ∧ T.buffer = some b := by
  obtain ⟨B, hB, ht⟩ := h
  exact hi.links.link hB ht

theorem Linked.inj (hi : Inv L s) (h : Linked s b t) (h' : Linked s b' t) : b = b' := by
  obtain ⟨T, hT, hb⟩ := h.txn hi
  obtain ⟨T', hT', hb'⟩ := h'.txn hi
  rw [hT] at hT'
  cases hT'
  rw [hb] at hb'
  exact Option.some.inj hb'

theorem Linked.unique (h : Linked s b t) (h' : Linked s b u) : t = u := by
  obtain ⟨B, hB, ht⟩ := h
  obtain ⟨B', hB', hu⟩ := h'
  rw [hB] at hB'
  cases hB'
  rw [ht] at hu
  exact Option.some.inj hu

/-- The transaction that has the buffer and has not reached user space. -/
theorem Inv.linked (hi : Inv L s) (ht : OnList s.contents t) :
    ∃ T b B, Live L s t T b B ∧ Linked s b t ∧ ¬ OnList s.freeing b := by
  obtain ⟨p, hp⟩ := ht
  obtain ⟨T, b, B, hl, hf, -⟩ := hi.live hp
  exact ⟨T, b, B, hl, ⟨B, hl.buf, hl.transaction⟩, hf⟩

/-- A buffer whose transaction has not reached user space is not with user space, nor being
freed. -/
theorem Inv.linked_busy (hi : Inv L s) (ht : OnList s.contents t) (h : Linked s b t) :
    (∃ B, s.buf b = some B ∧ B.allowUserFree = false) ∧ ¬ OnList s.freeing b := by
  obtain ⟨T, b', B, hl, h', hf⟩ := hi.linked ht
  cases h.inj hi h'
  exact ⟨⟨B, hl.buf, hl.allowUserFree⟩, hf⟩

theorem eq_of_nodup_filterMap {α β : Type} {f : α → Option β} {xs : List α} {y z : α} {v : β}
    (h : (xs.filterMap f).Nodup) (hy : y ∈ xs) (hz : z ∈ xs) (hfy : f y = some v)
    (hfz : f z = some v) : y = z := by
  induction xs with
  | nil => cases hy
  | cons x xs ih =>
    rw [filterMap_cons_eq, List.nodup_append] at h
    obtain ⟨-, hn, hd⟩ := h
    rcases List.mem_cons.mp hy with rfl | hy' <;> rcases List.mem_cons.mp hz with rfl | hz'
    · rfl
    · exact absurd rfl (hd v (by simp [hfy]) v (List.mem_filterMap.mpr ⟨z, hz', hfz⟩))
    · exact absurd rfl (hd v (by simp [hfz]) v (List.mem_filterMap.mpr ⟨y, hy', hfy⟩))
    · exact ih hn hy' hz'

/-- A task sends or reads a transaction, not both. -/
theorem Inv.sending_reading (hi : Inv L s) (h : Acting s (.sending t)) (h' : Acting s (.reading t)) :
    False := by
  obtain ⟨a, act, hact, hk⟩ := h
  obtain ⟨a', act', hact', hk'⟩ := h'
  have := hi.placed.unique (mem_contents_of_token hact (.inl hk)) (mem_contents_of_token hact' (.inr hk'))
  cases this
  have hholds {act : Act} (h : act.token = some (.sending t) ∨ act.token = some (.reading t)) :
      act.holds = some t := by
    rcases h with h | h <;> obtain ⟨u, hu, he | he⟩ | ⟨b, -, he | he⟩ := token_cases h <;>
      cases he <;> exact hu
  have := eq_of_nodup_filterMap (hi.placed.nodup (.actor a)) hact hact' (hholds (.inl hk))
    (hholds (.inr hk'))
  subst this
  rw [hk] at hk'
  cases hk'

theorem Inv.freeing_released (hi : Inv L s) (h : Acting s (.freeing b)) (h' : Acting s (.released b)) :
    False := by
  obtain ⟨a, act, hact, hk⟩ := h
  obtain ⟨a', act', hact', hk'⟩ := h'
  have := hi.freed.unique (mem_freeing_of_token hact (.inl hk)) (mem_freeing_of_token hact' (.inr hk'))
  subst this
  have hfrees {act : Act} (h : act.token = some (.freeing b) ∨ act.token = some (.released b)) :
      act.frees = some b := by
    rcases h with h | h <;> obtain ⟨u, -, he | he⟩ | ⟨b, hb, he | he⟩ := token_cases h <;>
      cases he <;> exact hb
  have := eq_of_nodup_filterMap (hi.freed.nodup a) hact hact' (hfrees (.inl hk)) (hfrees (.inr hk'))
  subst this
  rw [hk] at hk'
  cases hk'

theorem InPhase.cases (h : InPhase s b ph) :
    (∃ t, Linked s b t ∧ ((∃ l, ph = .queued l t ∧ t ∈ s.contents (.list l)) ∨
        (ph = .sending t ∧ Acting s (.sending t)) ∨ (ph = .reading t ∧ Acting s (.reading t)))) ∨
      (ph = .user ∧ ∃ B, s.buf b = some B ∧ B.allowUserFree = true) ∨
      ((ph = .freeing ∧ Acting s (.freeing b)) ∨ (ph = .released ∧ Acting s (.released b))) := by
  cases ph with
  | sending t => exact .inl ⟨t, h.1, .inr (.inl ⟨rfl, h.2⟩)⟩
  | reading t => exact .inl ⟨t, h.1, .inr (.inr ⟨rfl, h.2⟩)⟩
  | queued l t => exact .inl ⟨t, h.1, .inl ⟨l, rfl, mem_contents_list.mpr h.2⟩⟩
  | user => exact .inr (.inl ⟨rfl, h⟩)
  | freeing => exact .inr (.inr (.inl ⟨rfl, h.2⟩))
  | released => exact .inr (.inr (.inr ⟨rfl, h.2⟩))

/-- A buffer is in at most one phase. -/
theorem InPhase.unique (hi : Inv L s) (h : InPhase s b ph) (h' : InPhase s b ph') : ph = ph' := by
  have hbusy {ph : Phase} {t : TxnId} (hk : (∃ l, ph = .queued l t ∧ t ∈ s.contents (.list l)) ∨
      (ph = .sending t ∧ Acting s (.sending t)) ∨ (ph = .reading t ∧ Acting s (.reading t))) :
      OnList s.contents t := by
    rcases hk with ⟨l, -, hl⟩ | ⟨-, hk⟩ | ⟨-, hk⟩
    · exact ⟨_, hl⟩
    · exact Acting.onList (.inl hk)
    · exact Acting.onList (.inr hk)
  have hfree {ph : Phase} (hk : (ph = .freeing ∧ Acting s (.freeing b)) ∨
      (ph = .released ∧ Acting s (.released b))) : OnList s.freeing b := by
    rcases hk with ⟨-, hk⟩ | ⟨-, hk⟩
    · exact Acting.onFreeing (.inl hk)
    · exact Acting.onFreeing (.inr hk)
  have huser {ph : Phase} {t : TxnId} (hl : Linked s b t) (hk : (∃ l, ph = .queued l t ∧
      t ∈ s.contents (.list l)) ∨ (ph = .sending t ∧ Acting s (.sending t)) ∨
      (ph = .reading t ∧ Acting s (.reading t))) {B : Buffer} (hB : s.buf b = some B)
      (hu : B.allowUserFree = true) : False := by
    obtain ⟨⟨B', hB', hu'⟩, -⟩ := hi.linked_busy (hbusy hk) hl
    rw [hB] at hB'
    cases hB'
    rw [hu] at hu'
    cases hu'
  have hfu {B : Buffer} (hf : OnList s.freeing b) (hB : s.buf b = some B)
      (hu : B.allowUserFree = true) : False := by
    have := hi.notUser hf hB
    rw [hu] at this
    cases this
  rcases h.cases with ⟨t, hl, hk⟩ | ⟨rfl, B, hB, hu⟩ | hk <;>
    rcases h'.cases with ⟨t', hl', hk'⟩ | ⟨rfl, B', hB', hu'⟩ | hk'
  · cases hl.unique hl'
    rcases hk with ⟨l, rfl, hm⟩ | ⟨rfl, hk⟩ | ⟨rfl, hk⟩ <;>
      rcases hk' with ⟨l', rfl, hm'⟩ | ⟨rfl, hk'⟩ | ⟨rfl, hk'⟩
    · cases hi.placed.unique hm hm'; rfl
    · obtain ⟨a, act, hact, hk'⟩ := hk'
      cases hi.placed.unique hm (mem_contents_of_token hact (.inl hk'))
    · obtain ⟨a, act, hact, hk'⟩ := hk'
      cases hi.placed.unique hm (mem_contents_of_token hact (.inr hk'))
    · obtain ⟨a, act, hact, hk⟩ := hk
      cases hi.placed.unique hm' (mem_contents_of_token hact (.inl hk))
    · rfl
    · exact (hi.sending_reading hk hk').elim
    · obtain ⟨a, act, hact, hk⟩ := hk
      cases hi.placed.unique hm' (mem_contents_of_token hact (.inr hk))
    · exact (hi.sending_reading hk' hk).elim
    · rfl
  · exact (huser hl hk hB' hu').elim
  · exact absurd (hfree hk') (hi.linked_busy (hbusy hk) hl).2
  · exact (huser hl' hk' hB hu).elim
  · rfl
  · exact (hfu (hfree hk') hB hu).elim
  · exact absurd (hfree hk) (hi.linked_busy (hbusy hk') hl').2
  · exact (hfu (hfree hk) hB' hu').elim
  · rcases hk with ⟨rfl, hk⟩ | ⟨rfl, hk⟩ <;> rcases hk' with ⟨rfl, hk'⟩ | ⟨rfl, hk'⟩
    · rfl
    · exact (hi.freeing_released hk hk').elim
    · exact (hi.freeing_released hk' hk).elim
    · rfl

/-! ## Steps of buffers -/

/-- What a run records: `binder_proc_transaction` has accepted `t`, or `binder_thread_read` has
taken `t` off a work list to deliver it. -/
inductive Event where
  | none
  | accepted (t : TxnId)
  | dequeued (t : TxnId)
  deriving DecidableEq, Repr

/-- The event of the step `op` from `s` to `s'`. A task whose transaction is not accepted goes on
with the error path. -/
def event (s s' : TxnState) : TxnOp → Event
  | .run a _ =>
    match s.frames a, s'.frames a with
    | .procTransaction _ t _ :: rest, acts => if acts = rest then .accepted t else .none
    | .read .. :: _, .deliver _ t :: _ => .dequeued t
    | _, _ => .none
  | _ => .none

/-- The buffer stays in its phase. -/
structure Same (s s' : TxnState) (b : BufId) : Prop where
  kind : (s'.buf b).map Buffer.kind = (s.buf b).map Buffer.kind
  phase : ∀ ph, InPhase s' b ph ↔ InPhase s b ph

/-- The buffer `b` goes from the phase `p` to the phase `q`, and all others stay. -/
structure Moves (s s' : TxnState) (b : BufId) (p q : Phase) : Prop where
  before : InPhase s b p
  after : InPhase s' b q
  kind : (s'.buf b).map Buffer.kind = (s.buf b).map Buffer.kind
  other : ∀ b', b' ≠ b → Same s s' b'

/-- The buffer `b` leaves the phase `p` and is in no phase any more; all others stay. -/
structure Loses (s s' : TxnState) (b : BufId) (p : Phase) : Prop where
  before : InPhase s b p
  after : ∀ q, ¬ InPhase s' b q
  kind : (s'.buf b).map Buffer.kind = (s.buf b).map Buffer.kind
  other : ∀ b', b' ≠ b → Same s s' b'

def SameFlags (s s' : TxnState) : Prop :=
  ∀ n, (s'.node n).hasAsyncTransaction = (s.node n).hasAsyncTransaction

def SameQueues (s s' : TxnState) : Prop :=
  ∀ n, s'.contents (.list (.node n)) = s.contents (.list (.node n))

/-- What the step `op` does to the buffers. -/
inductive BufStep (L : Layout) (s : TxnState) (op : TxnOp) (s' : TxnState) : Event → Prop
  | stay : (∀ b, Same s s' b) → SameFlags s s' → SameQueues s s' → BufStep L s op s' .none
  | alloc (b : BufId) (t : TxnId) : s.buf b = none → s.nextTxn ≤ t → InPhase s' b (.sending t) →
      (∀ b', b' ≠ b → Same s s' b') →
      SameFlags s s' → SameQueues s s' → BufStep L s op s' .none
  /-- `binder_proc_transaction` has set the flag of a node of a dead process. -/
  | reject (n : NodeId) : s.isDead (L.ownerOf n) = true → (∀ b, Same s s' b) →
      (∀ m, (s'.node m).hasAsyncTransaction =
        ((s.node m).hasAsyncTransaction || decide (m = n))) →
      SameQueues s s' → BufStep L s op s' .none
  | abort (b : BufId) (t : TxnId) : InPhase s b (.sending t) → s'.buf b = none → (∀ b', b' ≠ b → Same s s' b') →
      SameFlags s s' → SameQueues s s' → BufStep L s op s' .none
  /-- A transaction goes to a process or thread. If it is asynchronous, none of its node was in
  flight. -/
  | accept (t : TxnId) (b : BufId) (B : Buffer) (l : WorkList) (e : Event) : s.buf b = some B →
      Moves s s' b (.sending t) (.queued l t) →
      (∀ n, l ≠ .node n) → (∀ y, l = .thread y → (s'.thread y).isDead = false) →
      (e = .accepted t ∨ e = .none ∧ B.asyncTransaction = false) →
      (∀ n, B.asyncTransaction = true → B.targetNode = some n →
        (s.node n).hasAsyncTransaction = false) →
      (∀ n, (s'.node n).hasAsyncTransaction =
        ((s.node n).hasAsyncTransaction || (B.asyncTransaction && B.targetNode == some n))) →
      SameQueues s s' → BufStep L s op s' e
  /-- An asynchronous transaction waits for the one that is in flight. -/
  | wait (t : TxnId) (b : BufId) (B : Buffer) (n : NodeId) : s.buf b = some B →
      B.asyncTransaction = true → B.targetNode = some n →
      (s.node n).hasAsyncTransaction = true → Moves s s' b (.sending t) (.queued (.node n) t) →
      SameFlags s s' →
      s'.contents (.list (.node n)) = s.contents (.list (.node n)) ++ [t] →
      (∀ m, m ≠ n → s'.contents (.list (.node m)) = s.contents (.list (.node m))) →
      BufStep L s op s' (.accepted t)
  | take (t : TxnId) (b : BufId) (l : WorkList) : (∀ n, l ≠ .node n) →
      Moves s s' b (.queued l t) (.reading t) → SameFlags s s' → SameQueues s s' →
      BufStep L s op s' (.dequeued t)
  /-- `binder_release_work` drops a transaction. -/
  | drop (t : TxnId) (b : BufId) (l : WorkList) : OwnerDead L s l →
      Loses s s' b (.queued l t) → SameFlags s s' →
      (∀ n, if l = .node n then s.contents (.list l) = t :: s'.contents (.list l)
        else s'.contents (.list (.node n)) = s.contents (.list (.node n))) →
      BufStep L s op s' .none
  /-- The copy of a transaction to user space fails. -/
  | lose (a : Actor) (env : Env) (x : ThreadId) (t : TxnId) (rest : List Act) (b : BufId) :
      op = .run a env → env.ok = false → s.frames a = .copy x t :: rest →
      Loses s s' b (.reading t) → SameFlags s s' → SameQueues s s' → BufStep L s op s' .none
  | toUser (b : BufId) (t : TxnId) : Moves s s' b (.reading t) .user → SameFlags s s' → SameQueues s s' →
      BufStep L s op s' .none
  | toFree (b : BufId) (p : Phase) : ((∃ t, p = .reading t) ∨ p = .user) → Moves s s' b p .freeing →
      SameFlags s s' → SameQueues s s' → BufStep L s op s' .none
  /-- `binder_free_buf`: no transaction waits for this one. -/
  | last (b : BufId) (B : Buffer) (n : NodeId) : s.buf b = some B → B.asyncTransaction = true →
      B.targetNode = some n → s.contents (.list (.node n)) = [] →
      Moves s s' b .freeing .released →
      (∀ m, (s'.node m).hasAsyncTransaction =
        ((s.node m).hasAsyncTransaction && !decide (m = n))) →
      SameQueues s s' → BufStep L s op s' .none
  /-- `binder_free_buf`: the next transaction of the node goes on. -/
  | next (b : BufId) (B : Buffer) (n : NodeId) (t : TxnId) (b₂ : BufId) : s.buf b = some B →
      B.asyncTransaction = true → B.targetNode = some n → b₂ ≠ b →
      s.contents (.list (.node n)) = t :: s'.contents (.list (.node n)) →
      (∀ m, m ≠ n → s'.contents (.list (.node m)) = s.contents (.list (.node m))) →
      InPhase s b .freeing → InPhase s' b .released →
      InPhase s b₂ (.queued (.node n) t) → InPhase s' b₂ (.queued (.proc B.proc) t) →
      (∀ b', (s'.buf b').map Buffer.kind = (s.buf b').map Buffer.kind) →
      (∀ b', b' ≠ b → b' ≠ b₂ → Same s s' b') → SameFlags s s' → BufStep L s op s' .none
  /-- `binder_free_buf` of the buffer of another transaction. -/
  | pass (b : BufId) (B : Buffer) : s.buf b = some B →
      (B.asyncTransaction = false ∨ B.targetNode = none) → Moves s s' b .freeing .released →
      SameFlags s s' → SameQueues s s' → BufStep L s op s' .none
  | free (b : BufId) : InPhase s b .released → s'.buf b = none → (∀ b', b' ≠ b → Same s s' b') →
      SameFlags s s' → SameQueues s s' → BufStep L s op s' .none

/-- The tokens of the buffer `b`. -/
def Token.Of (s : TxnState) (b : BufId) : Token → Prop
  | .sending t | .reading t => Linked s b t
  | .freeing c | .released c => c = b

/-- The buffer and its tokens stay, and its transaction stays where it is. -/
theorem Same.of_buf (hbuf : s'.buf b = s.buf b)
    (hk : ∀ k, k.Of s b → (Acting s' k ↔ Acting s k))
    (htodo : ∀ t, Linked s b t → ∀ l, .transaction t ∈ s'.todo l ↔ .transaction t ∈ s.todo l) :
    Same s s' b := by
  have hlink : ∀ t, Linked s' b t ↔ Linked s b t := fun t => by simp only [Linked, hbuf]
  refine ⟨by rw [hbuf], fun ph => ?_⟩
  cases ph with
  | sending t => exact (and_congr_left' (hlink t)).trans (and_congr_right fun h => hk (.sending t) h)
  | queued l t => exact (and_congr_left' (hlink t)).trans (and_congr_right fun h => htodo t h l)
  | reading t => exact (and_congr_left' (hlink t)).trans (and_congr_right fun h => hk (.reading t) h)
  | user => simp only [InPhase, hbuf]
  | freeing => simp only [InPhase, hbuf, hk (.freeing b) rfl]
  | released => simp only [InPhase, hbuf, hk (.released b) rfl]

/-- `buffer->transaction = NULL` where the transaction has reached user space. -/
theorem Same.unlink (hB : s.buf b = some B)
    (hB' : s'.buf b = some { B with transaction := none })
    (hno : ∀ t, Linked s b t → ¬ OnList s.contents t)
    (hk : ∀ k, k = .freeing b ∨ k = .released b → (Acting s' k ↔ Acting s k)) : Same s s' b := by
  have hl' : ∀ t, ¬ Linked s' b t := by
    rintro t ⟨B', h, ht⟩
    rw [hB'] at h
    cases h
    cases ht
  refine ⟨by rw [hB, hB']; rfl, fun ph => ?_⟩
  cases ph with
  | sending t =>
    exact ⟨fun h => absurd h.1 (hl' t), fun h => absurd (Acting.onList (.inl h.2)) (hno t h.1)⟩
  | queued l t =>
    exact ⟨fun h => absurd h.1 (hl' t), fun h => absurd ⟨_, mem_contents_list.mpr h.2⟩ (hno t h.1)⟩
  | reading t =>
    exact ⟨fun h => absurd h.1 (hl' t), fun h => absurd (Acting.onList (.inr h.2)) (hno t h.1)⟩
  | user => simp [InPhase, hB, hB']
  | freeing => simp [InPhase, hB, hB', hk (.freeing b) (.inl rfl)]
  | released => simp [InPhase, hB, hB', hk (.released b) (.inr rfl)]

theorem Token.Of.inj (hi : Inv L s) (h : k.Of s b) (h' : k.Of s b') : b = b' := by
  cases k with
  | sending t => exact Linked.inj hi h h'
  | reading t => exact Linked.inj hi h h'
  | freeing c => exact (show c = b from h).symm.trans h'
  | released c => exact (show c = b from h).symm.trans h'

/-- A buffer is in no phase: its transaction has left, and nobody has it. -/
theorem not_inPhase (hl : ∀ u, Linked s b u → ¬ OnList s.contents u)
    (hu : ∀ B, s.buf b = some B → B.allowUserFree = false)
    (hf : ¬ Acting s (.freeing b) ∧ ¬ Acting s (.released b)) (ph : Phase) : ¬ InPhase s b ph := by
  intro h
  rcases h.cases with ⟨t, hlt, ⟨l, -, hm⟩ | ⟨-, hk⟩ | ⟨-, hk⟩⟩ | ⟨-, B, hB, hB'⟩ | ⟨-, hk⟩ | ⟨-, hk⟩
  · exact hl t hlt ⟨_, hm⟩
  · exact hl t hlt (Acting.onList (.inl hk))
  · exact hl t hlt (Acting.onList (.inr hk))
  · rw [hu B hB] at hB'; cases hB'
  · exact hf.1 hk
  · exact hf.2 hk

/-! ## Membership in the work lists -/

theorem mem_todo_enqueue {todo : WorkList → List Work} {l' : WorkList} (hne : u ≠ t) :
    .transaction u ∈ Function.update todo l (todo l ++ [.transaction t]) l' ↔
      .transaction u ∈ todo l' := by
  rcases eq_or_ne l' l with rfl | h
  · simp [hne]
  · rw [Function.update_of_ne h]

theorem mem_todo_dequeue {todo : WorkList → List Work} {l' : WorkList} {w : Work}
    (hl : todo l = w :: ws) (hne : w ≠ .transaction u) :
    .transaction u ∈ Function.update todo l ws l' ↔ .transaction u ∈ todo l' := by
  rcases eq_or_ne l' l with rfl | h
  · rw [Function.update_self, hl, List.mem_cons]
    exact (or_iff_right hne.symm).symm
  · rw [Function.update_of_ne h]

theorem filterMap_dequeue_other {todo : WorkList → List Work} {type : WorkType}
    (hl : todo l = .other type :: ws) (l' : WorkList) :
    (Function.update todo l ws l').filterMap Work.txn? = (todo l').filterMap Work.txn? := by
  rcases eq_or_ne l' l with rfl | h
  · rw [Function.update_self, hl]; rfl
  · rw [Function.update_of_ne h]

theorem contents_node_of_ne {l' : WorkList} {w : List Work}
    (htodo : s'.todo = Function.update s.todo l w) (hne : l ≠ l') :
    s'.contents (.list l') = s.contents (.list l') := by
  simp only [TxnState.contents, htodo, Function.update_of_ne hne.symm]

theorem mem_todo_of_same (h : ∀ l, (s'.todo l).filterMap Work.txn? = (s.todo l).filterMap Work.txn?)
    (t : TxnId) (l : WorkList) : .transaction t ∈ s'.todo l ↔ .transaction t ∈ s.todo l := by
  rw [← mem_contents_list, ← mem_contents_list]
  exact Iff.of_eq (congrArg (t ∈ ·) (h l))

/-! ## The steps of a task -/

theorem event_none (hfr : s.frames a = act :: rest) (h : ∀ x t th, act ≠ .procTransaction x t th)
    (h' : ∀ x procWork, act ≠ .read x procWork) : event s s' (.run a env) = .none := by
  unfold event
  simp only [hfr]
  cases act with
  | procTransaction x t th => exact absurd rfl (h x t th)
  | read x procWork => exact absurd rfl (h' x procWork)
  | _ => rfl

section Steps

variable (hi : Inv L s) (hfr : s.frames a = act :: rest)
include hi hfr

/-- Tokens of another buffer stay. -/
theorem acting_other {z : List Act}
    (hfr' : s'.frames = Function.update s.frames a (g ++ z)) (hrest : z.Sublist rest)
    (hdrop : ∀ act' ∈ rest, act' ∈ z ∨ act'.token = none)
    (hact : ∀ k, act.token = some k → k.Of s b)
    (hnew : ∀ act' ∈ g, ∀ k, act'.token = some k → k.Of s b) (hne : b' ≠ b) (hk : k.Of s b') :
    Acting s' k ↔ Acting s k := by
  rw [acting_iff hi hfr hfr' hrest hdrop]
  constructor
  · rintro (⟨act', hact', h⟩ | h)
    · exact absurd ((hnew act' hact' k h).inj hi hk).symm hne
    · exact h.1
  · exact fun h => .inr ⟨h, fun hk' => hne ((hact k hk').inj hi hk).symm⟩

/-- A step that changes no buffer, token or queue. -/
theorem bufStep_stay (hfr' : s'.frames = Function.update s.frames a (g ++ rest))
    (htok : ∀ k, (∃ act' ∈ g, act'.token = some k) ↔ act.token = some k)
    (hbuf : s'.buf = s.buf)
    (htodo : ∀ l, (s'.todo l).filterMap Work.txn? = (s.todo l).filterMap Work.txn?)
    (hflag : SameFlags s s') : BufStep L s op s' .none :=
  .stay (fun b => .of_buf (by rw [hbuf]) (fun k _ => acting_same hi hfr hfr' htok k)
    fun t _ => mem_todo_of_same htodo t) hflag fun n => htodo (.node n)

/-- The transaction that a task sends goes to the end of a list. -/
theorem moves_enqueue (hk : act.token = some (.sending t)) (hlink : Linked s b t)
    (hbuf : s'.buf = s.buf)
    (htodo : s'.todo = Function.update s.todo l (s.todo l ++ [.transaction t]))
    (hfr' : s'.frames = Function.update s.frames a (g ++ rest))
    (hnew : ∀ act' ∈ g, act'.token = none) : Moves s s' b (.sending t) (.queued l t) := by
  refine ⟨⟨hlink, a, act, hfr ▸ List.mem_cons_self, hk⟩, ⟨?_, ?_⟩, by rw [hbuf],
    fun b' hne => .of_buf (by rw [hbuf]) (fun k hkb => ?_) fun u hu l' => ?_⟩
  · obtain ⟨B, hB, ht⟩ := hlink
    exact ⟨B, by rw [hbuf]; exact hB, ht⟩
  · rw [htodo, Function.update_self]
    exact List.mem_append_right _ (List.mem_singleton_self _)
  · refine acting_other hi hfr hfr' (.refl _) (fun _ h => .inl h) (fun k hk' => ?_)
      (fun act' h' k hk' => ?_) hne hkb
    · rw [hk] at hk'; cases hk'; exact hlink
    · rw [hnew act' h'] at hk'; cases hk'
  · rw [htodo]
    refine mem_todo_enqueue ?_
    rintro rfl
    exact hne (hu.inj hi hlink)

/-- A transaction leaves its list; the buffers of the others stay. -/
theorem same_dequeue (hk : act.token = none) (hlink : Linked s b t) (hbuf : s'.buf = s.buf)
    (hl : s.todo l = .transaction t :: ws) (htodo : s'.todo = Function.update s.todo l ws)
    (hfr' : s'.frames = Function.update s.frames a (g ++ rest))
    (hnew : ∀ act' ∈ g, ∀ k, act'.token = some k → k.Of s b) (hne : b' ≠ b) : Same s s' b' := by
  refine .of_buf (by rw [hbuf]) (fun k hkb => ?_) fun u hu l' => ?_
  · refine acting_other hi hfr hfr' (.refl _) (fun _ h => .inl h) (fun k hk' => ?_) hnew hne hkb
    rw [hk] at hk'; cases hk'
  · rw [htodo]
    refine mem_todo_dequeue hl ?_
    rintro ⟨⟩
    exact hne (hu.inj hi hlink)

/-- A task goes on to release the buffer that it frees. -/
theorem moves_release (hk : act = .freeBufAsync b) (hB : s.buf b = some B)
    (hbuf : s'.buf = s.buf)
    (htodo : ∀ t l, .transaction t ∈ s'.todo l ↔ .transaction t ∈ s.todo l)
    (hfr' : s'.frames = Function.update s.frames a (.freeBufRelease b :: rest)) :
    Moves s s' b .freeing .released := by
  subst hk
  refine ⟨⟨by simp [hB], a, _, hfr ▸ List.mem_cons_self, rfl⟩, ⟨by simp [hbuf, hB], a,
    .freeBufRelease b, by simp [hfr'], rfl⟩, by rw [hbuf], fun b' hne =>
      .of_buf (by rw [hbuf]) (fun k hkb => ?_) fun t _ => htodo t⟩
  refine acting_other hi hfr (g := [.freeBufRelease b]) hfr' (.refl _) (fun _ h => .inl h)
    (fun k hk' => ?_) (fun act' h' k hk' => ?_) hne hkb
  · cases hk'; rfl
  · rw [List.mem_singleton.mp h'] at hk'; cases hk'; rfl

end Steps

/-- `binder_thread_read` has taken no transaction: what it goes on with holds none. -/
theorem event_read (hfr : s.frames a = .read x procWork :: rest) (hs : Sched L s)
    (hfr' : s'.frames a = g ++ rest) (hnew : ∀ act ∈ g, act.token = none) :
    event s s' (.run a env) = .none := by
  have htail := hs.tail a
  rw [hfr, List.pairwise_cons] at htail
  have hno : ∀ act ∈ s'.frames a, act.token = none := by
    rw [hfr']
    intro act hact
    rcases List.mem_append.mp hact with h | h
    · exact hnew act h
    · exact htail.1 act h rfl
  unfold event
  simp only [hfr]
  cases hq : s'.frames a with
  | nil => rfl
  | cons act acts =>
    have hact := hno act (by rw [hq]; exact List.mem_cons_self)
    cases act with
    | deliver => cases hact
    | _ => rfl

/-- The transaction that the next act sends or reads, with its buffer. -/
theorem Inv.token_live (hi : Inv L s) (hact : act ∈ s.frames a) (ht : act.holds = some t)
    (hT : s.txn t = some T) (hb : T.buffer = some b) (hB : s.buf b = some B) :
    Live L s t T b B ∧ Linked s b t := by
  have hmem : t ∈ s.contents (.actor a) := List.mem_filterMap.mpr ⟨act, hact, ht⟩
  obtain ⟨T', b', B', hl, -⟩ := hi.live hmem
  obtain ⟨rfl, rfl, rfl⟩ := hl.eq hT hb hB
  exact ⟨hl, B', hl.buf, hl.transaction⟩

/-! ## The acts -/

/-- The read goes on to copy: the same transaction is being read. -/
theorem bufStep_deliver (hi : Inv L s) (hs : Sched L s) (hfr : s.frames a = .deliver x t :: rest) :
    BufStep L s op (s.setFrames a [.copy x t]) .none := by
  have hact : .deliver x t ∈ s.frames a := hfr ▸ List.mem_cons_self
  have htail := hs.tail a
  rw [hfr, List.pairwise_cons] at htail
  have hk : ∀ k, Acting (s.setFrames a [.copy x t]) k ↔ Acting s k := by
    intro k
    rw [acting_iff hi hfr (g := [.copy x t]) (z := []) rfl (List.nil_sublist _)
      fun act' h' => .inr (htail.1 act' h' rfl)]
    simp only [List.mem_singleton, exists_eq_left, Act.token, Option.some.injEq]
    constructor
    · rintro (rfl | h)
      · exact ⟨a, _, hact, rfl⟩
      · exact h.1
    · intro h
      by_cases hk : Token.reading t = k
      · exact .inl hk
      · exact .inr ⟨h, by simpa [Act.token] using hk⟩
  exact .stay (fun b => .of_buf rfl (fun k _ => hk k) fun _ _ _ => Iff.rfl) (fun _ => rfl)
    fun _ => rfl

/-- `binder_free_transaction` takes the buffer off the transaction, which is in no phase. -/
theorem bufStep_freeLinked (hi : Inv L s) (hfr : s.frames a = .freeTransaction t :: rest)
    (hT : s.txn t = some T) (hb : T.buffer = some b) (hs₁ : s.unlink b = some s₁) :
    BufStep L s op ((s₁.setTxn t none).setFrames a rest) .none := by
  have hact : .freeTransaction t ∈ s.frames a := hfr ▸ List.mem_cons_self
  obtain ⟨B, hB, hs₁⟩ := Option.bind_eq_some_iff.mp hs₁
  cases hs₁
  have hset : Settled s.contents s t := hi.refs hact (by simp [Act.refs])
  have hk (acts : List Act) (s₁ : TxnState)
      (h : s₁.frames = Function.update s.frames a (acts ++ rest)) (hacts : acts = []) :
      ∀ k, Acting s₁ k ↔ Acting s k :=
    acting_same hi hfr h (by simp [hacts, Act.token])
  refine .stay (fun b' => ?_) (fun _ => rfl) fun _ => rfl
  rcases eq_or_ne b' b with rfl | hne
  · refine .unlink hB (by simp) (fun u hu => ?_) fun k _ => hk [] _ rfl rfl k
    obtain ⟨U, hU, hUb⟩ := hu.txn hi
    rw [hi.links.inj hU hT hUb hb]
    exact hset.2
  · exact .of_buf (by simp [hne]) (fun k _ => hk [] _ rfl rfl k) fun _ _ _ => Iff.rfl

/-- `binder_free_buf` takes the transaction off the buffer, which is being freed. -/
theorem bufStep_freeBufLinked (hi : Inv L s) (hfr : s.frames a = .freeBuf b :: rest)
    (hB : s.buf b = some B) :
    BufStep L s op (((s.setTxn t (some { T with buffer := none })).setBuf b
      (some { B with transaction := none })).setFrames a (.freeBufAsync b :: rest)) .none := by
  have hact : .freeBuf b ∈ s.frames a := hfr ▸ List.mem_cons_self
  have hk (s₁ : TxnState)
      (h : s₁.frames = Function.update s.frames a ([.freeBufAsync b] ++ rest)) :
      ∀ k, Acting s₁ k ↔ Acting s k :=
    acting_same hi hfr h (by simp [Act.token])
  refine .stay (fun b' => ?_) (fun _ => rfl) fun _ => rfl
  rcases eq_or_ne b' b with rfl | hne
  · refine .unlink hB (by simp) (fun u hu hon => ?_) fun k _ => hk _ rfl k
    exact (hi.linked_busy hon hu).2 ⟨a, mem_freeing_of_token hact (.inl rfl)⟩
  · exact .of_buf (by simp [hne]) (fun k _ => hk _ rfl k) fun _ _ _ => Iff.rfl

/-- `binder_alloc_new_buf`: the buffer is being sent. -/
theorem bufStep_sendAlloc {tp : ProcId} {n : Option NodeId} {irt : Option TxnId} {th : Option ThreadId}
    {oneWay : Bool} (hi : Inv L s) (hfr : s.frames a = .send x tp n irt th oneWay :: rest) :
    BufStep L s op ((s.allocTxn x tp n irt th oneWay).setFrames a
      (.build x s.nextTxn irt th :: rest)) .none := by
  have hnone : s.buf s.nextBuf = none := by
    cases hB : s.buf s.nextBuf with
    | none => rfl
    | some B => exact absurd (hi.links.buf_lt hB) (lt_irrefl _)
  have hlink : ∀ b t, Linked s b t → t ≠ s.nextTxn := by
    rintro b t h rfl
    obtain ⟨T, hT, -⟩ := h.txn hi
    exact absurd (hi.links.txn_lt hT) (lt_irrefl _)
  have hB : ((s.allocTxn x tp n irt th oneWay).setFrames a (.build x s.nextTxn irt th :: rest)).buf
      s.nextBuf = some ⟨tp, irt.isNone && oneWay, n, some s.nextTxn, false⟩ := by
    simp [TxnState.allocTxn]
  refine .alloc s.nextBuf s.nextTxn hnone le_rfl ⟨⟨_, hB, rfl⟩, a, .build x s.nextTxn irt th, by simp, rfl⟩
    (fun b' hne => ?_) (fun _ => rfl) fun _ => rfl
  refine .of_buf (by simp [TxnState.allocTxn, hne]) (fun k hk => ?_) fun _ _ _ => Iff.rfl
  rw [acting_iff hi hfr (g := [.build x s.nextTxn irt th]) rfl (.refl _) fun _ h => .inl h]
  simp only [List.mem_singleton, exists_eq_left, Act.token, Option.some.injEq, reduceCtorEq, ne_eq,
    not_false_eq_true, and_true, or_iff_right_iff_imp]
  rintro rfl
  exact absurd rfl (hlink b' _ hk)

/-- A reply goes to the thread that waits for it. -/
theorem bufStep_buildReply {r : TxnId} (hi : Inv L s)
    (hfr : s.frames a = .build x t (some r) (some y) :: rest) (hd : (s.thread y).isDead = false)
    (hpop : s.pop y r = some s₁) :
    BufStep L s op ((s₁.enqueueThread y (.transaction t)).setFrames a
      (.freeTransaction r :: rest)) .none := by
  have hact : .build x t (some r) (some y) ∈ s.frames a := hfr ▸ List.mem_cons_self
  obtain ⟨e₁, -, -, e₄, e₅, e₆, e₇⟩ := pop_same hpop
  obtain ⟨T, b, B, hT, hb, hB, -, hn, -⟩ :
    ActOk L s.contents s (.build x t (some r) (some y)) := hi.acts hact
  obtain ⟨hl, hlink⟩ := hi.token_live hact rfl hT hb hB
  have hasync : B.asyncTransaction = false := by
    rw [← Bool.not_eq_true]
    intro ha
    have := (hl.async ha).2
    rw [hn] at this
    cases this
  refine .accept t b B (.thread y) .none hB ?_ (by simp) (by rintro _ ⟨⟩; simpa [e₇] using hd)
    (.inr ⟨rfl, hasync⟩) (by simp [hasync]) (fun n => ?_) fun n => ?_
  · refine moves_enqueue hi hfr rfl hlink e₆ ?_ ?_ (g := [.freeTransaction r]) (by simp [Act.token])
    · rw [← e₄]; rfl
    · rw [← e₁]; rfl
  · simp [hasync, e₅]
  · rw [contents_node_of_ne (s := s₁) (l := .thread y) rfl (by simp)]
    simp only [TxnState.contents, e₄]

/-- `binder_proc_transaction` queues the transaction: on the node, on a thread or on the process. -/
theorem bufStep_accepted {th : Option ThreadId} (hi : Inv L s) (hs : Sched L s)
    (hfr : s.frames a = .procTransaction x t th :: rest) (hT : s.txn t = some T) (hb : T.buffer = some b)
    (hB : s.buf b = some B) (hn : B.targetNode = some n)
    (hpt : s.binderProcTransaction t T.oneWay n B.proc th = some (true, s₁)) :
    BufStep L s op (s₁.setFrames a rest) (.accepted t) := by
  have hact : .procTransaction x t th ∈ s.frames a := hfr ▸ List.mem_cons_self
  obtain ⟨hl, hlink⟩ := hi.token_live hact rfl hT hb hB
  obtain ⟨T', b', B', hT', hb', hB', hth, hasync⟩ :
    ActOk L s.contents s (.procTransaction x t th) := hi.acts hact
  rw [hT] at hT'; cases hT'
  rw [hb] at hb'; cases hb'
  rw [hB] at hB'; cases hB'
  have hfr₁ : s₁.frames = s.frames := (binderProcTransaction_spec hpt).1.frames
  have hflag (m : NodeId) : ((s.setAsync T.oneWay n).node m).hasAsyncTransaction =
      ((s.node m).hasAsyncTransaction || (B.asyncTransaction && B.targetNode == some m)) := by
    rw [setAsync_flag, hasync, hn]
    rcases eq_or_ne m n with rfl | hne
    · simp
    · simp [hne, hne.symm]
  have hmoves {l : WorkList} (hbuf : s₁.buf = s.buf)
      (htodo : s₁.todo = Function.update s.todo l (s.todo l ++ [Work.transaction t])) :
      Moves s (s₁.setFrames a rest) b (.sending t) (.queued l t) :=
    moves_enqueue hi hfr rfl hlink hbuf htodo (g := []) (by rw [← hfr₁]; rfl) (by simp)
  have hqueues (l : WorkList) (hl : ∀ m, l ≠ .node m)
      (htodo : s₁.todo = Function.update s.todo l (s.todo l ++ [Work.transaction t])) :
      SameQueues s (s₁.setFrames a rest) := fun m =>
    (contents_node_of_ne htodo (hl m) :)
  obtain ⟨-, ⟨how, hset, rfl, rfl⟩ | ⟨hnot, ⟨y, rfl, how, hd, rfl⟩ | ⟨rfl, y, ys, hw, rfl⟩ |
    ⟨rfl, hw, rfl⟩⟩⟩ := procTransaction_cases hpt
  · refine .wait t b B n hB (hasync.trans how) hn hset
      (hmoves (by simp) (by simp)) (fun m => ?_) ?_ fun m hne => ?_
    · show ((s.setAsync T.oneWay n).node m).hasAsyncTransaction = _
      rw [setAsync_flag]
      rcases eq_or_ne m n with rfl | hne
      · simp [hset]
      · simp [hne]
    · simp [TxnState.contents, Work.txn?]
    · simp [TxnState.contents, hne]
  · refine .accept t b B (.thread y) _ hB (hmoves rfl rfl) (by simp)
      (by rintro _ ⟨⟩; simpa using hd) (.inl rfl) (fun m ha _ => ?_) (fun m => ?_)
      (hqueues (.thread y) (by simp) rfl)
    · rw [hasync, how] at ha; cases ha
    · simp [hasync, how]
  · have hlive : (s.thread y).isDead = false := by
      obtain ⟨-, r, hr⟩ := hs.waiting (hw ▸ List.mem_cons_self)
      rw [← Bool.not_eq_true]
      intro hd
      have := hs.dead hd (hr ▸ List.mem_cons_self)
      cases this
    refine .accept t b B (.thread y) _ hB (hmoves (by simp) (by simp)) (by simp)
      (by rintro _ ⟨⟩; simpa using hlive) (.inl rfl) (fun m ha hm => ?_) hflag
      (hqueues (.thread y) (by simp) (by simp))
    rw [hn] at hm
    cases hm
    exact hnot (hasync ▸ ha)
  · refine .accept t b B (.proc B.proc) _ hB (hmoves (by simp) (by simp)) (by simp)
      (by simp) (.inl rfl) (fun m ha hm => ?_) hflag (hqueues (.proc B.proc) (by simp) (by simp))
    rw [hn] at hm
    cases hm
    exact hnot (hasync ▸ ha)

/-- `binder_proc_transaction` refuses: the transaction is still to be sent, until it is taken back. -/
theorem bufStep_rejected {th : Option ThreadId} (hi : Inv L s)
    (hfr : s.frames a = .procTransaction x t th :: rest) (hT : s.txn t = some T) (hb : T.buffer = some b)
    (hB : s.buf b = some B) (hn : B.targetNode = some n)
    (hpt : s.binderProcTransaction t T.oneWay n B.proc th = some (false, s₁)) :
    BufStep L s op (s₁.setFrames a
      ((if T.oneWay then [] else [.popTransaction x t]) ++ .unwind t none :: rest)) .none := by
  have hact : .procTransaction x t th ∈ s.frames a := hfr ▸ List.mem_cons_self
  obtain ⟨hl, hlink⟩ := hi.token_live hact rfl hT hb hB
  obtain ⟨rfl, hdead⟩ := procTransaction_fails hpt
  obtain ⟨g, hnew⟩ : ∃ g : List Act, g = (if T.oneWay then [] else [.popTransaction x t]) ++
    [.unwind t none] := ⟨_, rfl⟩
  have hacts : (if T.oneWay then [] else [.popTransaction x t]) ++ .unwind t none :: rest =
      g ++ rest := by rw [hnew]; simp
  rw [hacts]
  have hk : ∀ k, Acting ((s.setAsync T.oneWay n).setFrames a (g ++ rest)) k ↔ Acting s k :=
    acting_same hi hfr (g := g) (by simp) (by rw [hnew]; split <;> simp [Act.token])
  have hsame (b' : BufId) : Same s ((s.setAsync T.oneWay n).setFrames a (g ++ rest)) b' :=
    .of_buf (by simp) (fun k _ => hk k) fun u _ l => by simp
  have hqueues : SameQueues s ((s.setAsync T.oneWay n).setFrames a (g ++ rest)) := fun m => by
    simp [TxnState.contents]
  cases how : T.oneWay with
  | true =>
    rw [how] at hsame hqueues
    refine .reject n ?_ hsame (fun m => ?_) hqueues
    · rcases hdead with h | ⟨y, -, h, -⟩
      · rw [hl.owner n hn]; exact h
      · rw [how] at h; cases h
    · show ((s.setAsync true n).node m).hasAsyncTransaction = _
      simp [setAsync_flag]
  | false =>
    rw [how] at hsame hqueues
    exact .stay hsame (fun m => by
      show ((s.setAsync false n).node m).hasAsyncTransaction = _
      simp [setAsync_flag]) hqueues

/-- The error path of `binder_transaction` frees the buffer. -/
theorem bufStep_unwind {irt : Option TxnId} (hi : Inv L s) (hfr : s.frames a = .unwind t irt :: rest)
    (hT : s.txn t = some T) (hb : T.buffer = some b) :
    BufStep L s op (((s.setBuf b none).setTxn t none).setFrames a
      (TxnState.onError irt ++ rest)) .none := by
  have hact : .unwind t irt ∈ s.frames a := hfr ▸ List.mem_cons_self
  have hmem : t ∈ s.contents (.actor a) := List.mem_filterMap.mpr ⟨_, hact, rfl⟩
  obtain ⟨T', b', B, hl, -⟩ := hi.live hmem
  have hT' := hl.txn
  rw [hT] at hT'; cases hT'
  have hb' := hl.buffer
  rw [hb] at hb'; cases hb'
  have hlink : Linked s b t := ⟨B, hl.buf, hl.transaction⟩
  refine .abort b t ⟨hlink, a, _, hact, rfl⟩ (by simp) (fun b' hne => ?_) (fun _ => rfl) fun _ => rfl
  refine .of_buf (by simp [hne]) (fun k hkb => ?_) fun _ _ _ => Iff.rfl
  refine acting_other hi hfr (g := TxnState.onError irt) rfl (.refl _) (fun _ h => .inl h)
    (fun k hk => ?_) (fun act' h' k hk => ?_) hne hkb
  · cases hk; exact hlink
  · cases irt with
    | none => cases h'
    | some r =>
      rw [TxnState.onError, Option.toList_some, List.map_singleton, List.mem_singleton] at h'
      rw [h'] at hk; cases hk

/-- No one-way transaction of the node waits: `has_async_transaction` is cleared. -/
theorem bufStep_asyncLast (hi : Inv L s) (hfr : s.frames a = .freeBufAsync b :: rest)
    (hB : s.buf b = some B) (ha : B.asyncTransaction = true) (hn : B.targetNode = some n)
    (htodo : s.todo (.node n) = []) :
    BufStep L s op ((s.setNode n { s.node n with hasAsyncTransaction := false }).setFrames a
      (.freeBufRelease b :: rest)) .none := by
  refine .last b B n hB ha hn (by simp [TxnState.contents, htodo])
    (moves_release hi hfr rfl hB rfl (fun _ _ => Iff.rfl) rfl) (fun m => ?_) fun _ => rfl
  rcases eq_or_ne m n with rfl | hne
  · simp
  · simp [hne]

theorem bufStep_freeBufRelease (hi : Inv L s) (hfr : s.frames a = .freeBufRelease b :: rest)
    (hB : s.buf b = some B) : BufStep L s op ((s.setBuf b none).setFrames a rest) .none := by
  have hact : .freeBufRelease b ∈ s.frames a := hfr ▸ List.mem_cons_self
  refine .free b ⟨by simp [hB], a, _, hact, rfl⟩ (by simp) (fun b' hne => ?_) (fun _ => rfl) fun _ => rfl
  refine .of_buf (by simp [hne]) (fun k hkb => ?_) fun _ _ _ => Iff.rfl
  refine acting_other hi hfr (g := []) rfl (.refl _) (fun _ h => .inl h)
    (fun k hk => ?_) (by simp) hne hkb
  cases hk; rfl

/-- `binder_thread_read` takes a transaction from the thread or from the process. -/
theorem bufStep_readTransaction (hi : Inv L s) (hfr : s.frames a = .read x procWork :: rest)
    (hwhere : l = .thread x ∨ l = .proc (L.procOf x) ∧ procWork = true ∧ s.todo (.thread x) = [])
    (htodo : s.todo l = .transaction t :: ws) :
    BufStep L s op (((s.setTodo l ws).setThread x { s.thread x with
      processTodo := (s.thread x).processTodo && !((s.setTodo l ws).todo (.thread x)).isEmpty }).setFrames a
      (.deliver x t :: .read x procWork :: rest)) (.dequeued t) := by
  have hmem : t ∈ s.contents (.list l) := mem_contents_list.mpr (htodo ▸ List.mem_cons_self)
  obtain ⟨T, b, B, hl, hlink, -⟩ := hi.linked ⟨_, hmem⟩
  have hnode : ∀ n, l ≠ .node n := by
    rcases hwhere with rfl | ⟨rfl, -⟩ <;> simp
  refine .take t b l hnode ⟨⟨hlink, htodo ▸ List.mem_cons_self⟩,
    ⟨hlink, a, .deliver x t, by simp, rfl⟩, rfl, fun b' hne => ?_⟩ (fun _ => rfl) fun n => ?_
  · refine same_dequeue hi hfr (g := [.deliver x t, .read x procWork]) rfl hlink rfl htodo rfl rfl
      (fun act' h' k hk => ?_) hne
    rw [List.mem_cons, List.mem_singleton] at h'
    rcases h' with rfl | rfl <;> cases hk
    exact hlink
  · exact contents_node_of_ne (s := s) (w := ws) rfl (hnode n)

/-- A work list is released: a transaction on it keeps its buffer and loses its place. -/
theorem bufStep_releaseTransaction (hi : Inv L s)
    (hi' : Inv L ((s.setTodo l ws).setFrames a (.cleanupTransaction t :: .releaseWork l :: rest)))
    (hs : Sched L s) (hfr : s.frames a = .releaseWork l :: rest)
    (htodo : s.todo l = .transaction t :: ws) :
    BufStep L s op ((s.setTodo l ws).setFrames a
      (.cleanupTransaction t :: .releaseWork l :: rest)) .none := by
  have hact : .releaseWork l ∈ s.frames a := hfr ▸ List.mem_cons_self
  have hmem : t ∈ s.contents (.list l) := mem_contents_list.mpr (htodo ▸ List.mem_cons_self)
  obtain ⟨T, b, B, hl, hlink, hf⟩ := hi.linked ⟨_, hmem⟩
  have hk : ∀ k, Acting ((s.setTodo l ws).setFrames a
      (.cleanupTransaction t :: .releaseWork l :: rest)) k ↔ Acting s k :=
    acting_same hi hfr (g := [.cleanupTransaction t, .releaseWork l]) rfl (by simp [Act.token])
  have hset := hi'.refs (a := a) (show Act.cleanupTransaction t ∈ _ by simp) (show t ∈ _ by simp [Act.refs])
  refine .drop t b l (hs.release hact) ⟨⟨hlink, htodo ▸ List.mem_cons_self⟩,
    not_inPhase (fun u hu hon => ?_) (fun B' hB' => ?_) ⟨fun h => ?_, fun h => ?_⟩, rfl,
    fun b' hne => ?_⟩ (fun _ => rfl) fun n => ?_
  · obtain rfl : t = u := hlink.unique hu
    exact hset.2 hon
  · have : s.buf b = some B' := hB'
    rw [hl.buf] at this; cases this
    exact hl.allowUserFree
  · exact hf (Acting.onFreeing (.inl ((hk _).mp h)))
  · exact hf (Acting.onFreeing (.inr ((hk _).mp h)))
  · exact same_dequeue hi hfr (g := [.cleanupTransaction t, .releaseWork l]) rfl hlink rfl htodo rfl
      rfl (by simp [Act.token]) hne
  · split
    · simp [TxnState.contents, htodo, Work.txn?]
    · rename_i hne
      exact contents_node_of_ne (s := s) (w := ws) rfl hne

theorem bufStep_deliverFail (hi : Inv L s) (hs : Sched L s) (hfr : s.frames a = .deliver x t :: rest)
    (hT : s.txn t = some T) (hb : T.buffer = some b) (hB : s.buf b = some B) :
    BufStep L s op ((s.setBuf b (some { B with transaction := none })).setFrames a
      (.cleanupTransaction t :: .freeBuf b :: if B.targetNode.isNone then [] else rest)) .none := by
  have hact : .deliver x t ∈ s.frames a := hfr ▸ List.mem_cons_self
  obtain ⟨hl, hlink⟩ := hi.token_live hact rfl hT hb hB
  have htail := hs.tail a
  rw [hfr, List.pairwise_cons] at htail
  have hrest : (if B.targetNode.isNone then [] else rest).Sublist rest := by split <;> simp
  refine .toFree b (.reading t) (.inl ⟨t, rfl⟩) ⟨⟨hlink, a, _, hact, rfl⟩,
    ⟨by simp, a, .freeBuf b, by simp, rfl⟩,
    by simp [hB, Buffer.kind], fun b' hne => ?_⟩ (fun _ => rfl) fun _ => rfl
  refine .of_buf (by simp [hne]) (fun k hkb => ?_) fun _ _ _ => Iff.rfl
  refine acting_other hi hfr (g := [.cleanupTransaction t, .freeBuf b]) rfl hrest
    (fun act' h' => .inr (htail.1 act' h' rfl)) (fun k hk => ?_) (fun act' h' k hk => ?_) hne hkb
  · cases hk; exact hlink
  · rw [List.mem_cons, List.mem_singleton] at h'
    rcases h' with rfl | rfl <;> cases hk
    rfl

theorem bufStep_copy (hi : Inv L s) (hfr : s.frames a = .copy x t :: rest) (hT : s.txn t = some T)
    (hb : T.buffer = some b) (hB : s.buf b = some B) :
    BufStep L s op ((s.setBuf b (some { B with allowUserFree := true })).setFrames a
      (.delivered x t B.targetNode.isNone :: rest)) .none := by
  have hact : .copy x t ∈ s.frames a := hfr ▸ List.mem_cons_self
  obtain ⟨hl, hlink⟩ := hi.token_live hact rfl hT hb hB
  refine .toUser b t ⟨⟨hlink, a, _, hact, rfl⟩, ⟨{ B with allowUserFree := true }, by simp, rfl⟩,
    by simp [hB, Buffer.kind],
    fun b' hne => ?_⟩ (fun _ => rfl) fun _ => rfl
  refine .of_buf (by simp [hne]) (fun k hkb => ?_) fun _ _ _ => Iff.rfl
  refine acting_other hi hfr (g := [.delivered x t B.targetNode.isNone]) rfl (.refl _)
    (fun _ h => .inl h) (fun k hk => ?_) (by simp [Act.token]) hne hkb
  cases hk; exact hlink

/-- The copy to user space faults: the buffer is lost. -/
theorem bufStep_copyFail (hi : Inv L s) (hi' : Inv L (s.setFrames a (.cleanupTransaction t :: rest)))
    (hfr : s.frames a = .copy x t :: rest) (hok : env.ok = false) :
    BufStep L s (.run a env) (s.setFrames a (.cleanupTransaction t :: rest)) .none := by
  have hact : .copy x t ∈ s.frames a := hfr ▸ List.mem_cons_self
  have hmem : t ∈ s.contents (.actor a) := List.mem_filterMap.mpr ⟨_, hact, rfl⟩
  obtain ⟨T, b, B, hl, hlink, hf⟩ := hi.linked ⟨_, hmem⟩
  have hset := hi'.refs (a := a) (show Act.cleanupTransaction t ∈ _ by simp) (show t ∈ _ by simp [Act.refs])
  have hk (k : Token) : Acting (s.setFrames a (.cleanupTransaction t :: rest)) k ↔ _ :=
    acting_iff hi hfr (g := [.cleanupTransaction t]) rfl (.refl _) fun _ h => .inl h
  refine .lose a env x t rest b rfl hok hfr ⟨⟨hlink, a, _, hact, rfl⟩,
    not_inPhase (fun u hu hon => ?_) (fun B' hB' => ?_) ⟨fun h => ?_, fun h => ?_⟩, rfl,
    fun b' hne => ?_⟩ (fun _ => rfl) fun _ => rfl
  · obtain rfl : t = u := hlink.unique hu
    exact hset.2 hon
  · have : s.buf b = some B' := hB'
    rw [hl.buf] at this; cases this
    exact hl.allowUserFree
  · refine hf (Acting.onFreeing (.inl ?_))
    simpa [Act.token] using (hk _).mp h
  · refine hf (Acting.onFreeing (.inr ?_))
    simpa [Act.token] using (hk _).mp h
  · refine .of_buf rfl (fun k hkb => ?_) fun _ _ _ => Iff.rfl
    refine acting_other hi hfr (g := [.cleanupTransaction t]) rfl (.refl _)
      (fun _ h => .inl h) (fun k hk => ?_) (by simp [Act.token]) hne hkb
    cases hk; exact hlink

/-- The next one-way transaction of the node goes to the process. -/
theorem bufStep_asyncNext {w : Work} (hi : Inv L s) (hs : Sched L s)
    (hfr : s.frames a = .freeBufAsync b :: rest) (hB : s.buf b = some B)
    (ha : B.asyncTransaction = true) (hn : B.targetNode = some n) (htodo : s.todo (.node n) = w :: ws) :
    BufStep L s op ((((s.setTodo (.node n) ws).enqueue (.proc B.proc) w).selectThread B.proc).2.setFrames a
      (.freeBufRelease b :: rest)) .none := by
  have hact : .freeBufAsync b ∈ s.frames a := hfr ▸ List.mem_cons_self
  obtain ⟨t, rfl⟩ := hs.asyncTodo (htodo ▸ List.mem_cons_self)
  obtain ⟨hst, htodo', hnode', -⟩ := selectThread_spec
    (s := (s.setTodo (.node n) ws).enqueue (.proc B.proc) (.transaction t)) B.proc
  obtain ⟨s₁, hs₁⟩ : ∃ s₁, s₁ = (((s.setTodo (.node n) ws).enqueue (.proc B.proc)
    (.transaction t)).selectThread B.proc).2 := ⟨_, rfl⟩
  rw [← hs₁] at hst htodo' hnode' ⊢
  have htodo₁ : s₁.todo = Function.update (Function.update s.todo (.node n) ws) (.proc B.proc)
      (s.todo (.proc B.proc) ++ [.transaction t]) := by
    rw [htodo']; simp
  have hbuf : s₁.buf = s.buf := hst.buf
  have hfr₁ : s₁.frames = s.frames := hst.frames
  have hmem : t ∈ s.contents (.list (.node n)) := mem_contents_list.mpr (htodo ▸ List.mem_cons_self)
  obtain ⟨T, b₂, B₂, hl, hlink, hf⟩ := hi.linked ⟨_, hmem⟩
  have hfree : b ∈ s.freeing a := mem_freeing_of_token hact (.inl rfl)
  have hne : b₂ ≠ b := by
    rintro rfl
    exact hf ⟨a, hfree⟩
  have hcont : (s₁.setFrames a (.freeBufRelease b :: rest)).contents (.list (.node n)) =
      ws.filterMap Work.txn? := by
    simp [TxnState.contents, htodo₁]
  refine .next b B n t b₂ hB ha hn hne ?_ (fun m hm => ?_) ⟨by simp [hB], a, _, hact, rfl⟩
    ⟨by simp [hbuf, hB], a, .freeBufRelease b, by simp, rfl⟩ ⟨hlink, htodo ▸ List.mem_cons_self⟩
    ⟨?_, ?_⟩ (fun b' => ?_) (fun b' h₁ h₂ => ?_) fun m => ?_
  · rw [hcont]; simp [TxnState.contents, htodo, Work.txn?]
  · simp [TxnState.contents, htodo₁, hm]
  · obtain ⟨B', hB', ht⟩ := hlink
    exact ⟨B', by simpa [hbuf] using hB', ht⟩
  · simp [htodo₁]
  · simp [hbuf]
  · refine .of_buf (by simp [hbuf]) (fun k hkb => ?_) fun u hu l => ?_
    · refine acting_other hi hfr (g := [.freeBufRelease b]) (by simp [hfr₁]) (.refl _)
        (fun _ h => .inl h) (fun k hk => ?_) (fun act' h' k hk => ?_) h₁ hkb
      · cases hk; rfl
      · rw [List.mem_singleton.mp h'] at hk; cases hk; rfl
    · have hut : u ≠ t := by
        rintro rfl
        exact h₂ (hu.inj hi hlink)
      have hproc : s.todo (.proc B.proc) =
        Function.update s.todo (.node n) ws (.proc B.proc) := by simp
      rw [TxnState.setFrames_todo, htodo₁, hproc, mem_todo_enqueue hut,
        mem_todo_dequeue htodo (by simpa using hut.symm)]
  · rw [TxnState.setFrames_node, hnode']; rfl

/-- Every step of a task is one of `BufStep`. -/
theorem execAct_bufStep (hi : Inv L s) (hi' : Inv L s') (hs : Sched L s)
    (hfr : s.frames a = act :: rest) (hst : ActStep L s a rest env act s') :
    BufStep L s (.run a env) s' (event s s' (.run a env)) := by
  have hact : act ∈ s.frames a := hfr ▸ List.mem_cons_self
  cases hst with
  | checkFail | replyBad | noWait | releaseDone =>
    rw [event_none hfr (by simp) (by simp)]
    exact bufStep_stay hi hfr (g := []) rfl (by simp [Act.token]) rfl (fun _ => rfl) fun _ => rfl
  | checkOneWay | checkFirst | checkNested | replyDead | replyTo | buildFail | buildOneWay
  | cleanupCall | cleanupOther | freeBuf | readRetry | woken | waitProc | waitThread
  | deliveredOther | buildCall =>
    rw [event_none hfr (by simp) (by simp)]
    exact bufStep_stay hi hfr (g := [_]) rfl (by simp [Act.token]) rfl (fun _ => rfl) fun _ => rfl
  | @sendFail x tp n irt th oneWay =>
    rw [event_none hfr (by simp) (by simp)]
    refine bufStep_stay hi hfr rfl ?_ rfl (fun _ => rfl) fun _ => rfl
    cases irt <;> simp [TxnState.onError, Act.token]
  | @failedParent t T =>
    rw [event_none hfr (by simp) (by simp)]
    refine bufStep_stay hi hfr (g := .freeTransaction t :: TxnState.onError T.fromParent) rfl ?_ rfl
      (fun _ => rfl) fun _ => rfl
    cases T.fromParent <;> simp [TxnState.onError, Act.token]
  | wake hnew =>
    rw [event_none hfr (by simp) (by simp)]
    refine bufStep_stay hi hfr rfl ?_ rfl (fun _ => rfl) fun _ => rfl
    rcases hnew with rfl | rfl <;> simp [Act.token]
  | @pop x t s₁ hpop =>
    rw [event_none hfr (by simp) (by simp)]
    obtain ⟨e₁, -, -, e₄, e₅, e₆, -⟩ := pop_same hpop
    exact bufStep_stay hi hfr (g := []) (by rw [← e₁]; rfl) (by simp [Act.token]) e₆
      (fun l => by rw [TxnState.setFrames_todo, e₄]) fun n => by rw [TxnState.setFrames_node, e₅]
  | @failedReply t T y s₁ hT hy hpop =>
    rw [event_none hfr (by simp) (by simp)]
    obtain ⟨e₁, -, -, e₄, e₅, e₆, -⟩ := pop_same hpop
    split
    · refine bufStep_stay hi hfr (g := [.freeTransaction t]) (by rw [← e₁]; rfl) (by simp [Act.token])
        e₆ (fun l => ?_) fun n => by rw [← e₅]; rfl
      rw [← e₄]
      exact filterMap_enqueue_other (s := s₁) l
    · exact bufStep_stay hi hfr (g := [.freeTransaction t]) (by rw [← e₁]; rfl) (by simp [Act.token])
        e₆ (fun l => by rw [TxnState.setFrames_todo, e₄]) fun n => by rw [TxnState.setFrames_node, e₅]
  | freeUnlinked =>
    rw [event_none hfr (by simp) (by simp)]
    exact bufStep_stay hi hfr (g := []) rfl (by simp [Act.token]) rfl (fun _ => rfl) fun _ => rfl
  | deliveredCall =>
    rw [event_none hfr (by simp) (by simp)]
    exact bufStep_stay hi hfr (g := []) rfl (by simp [Act.token]) rfl (fun _ => rfl) fun _ => rfl
  | @nodeRelease n =>
    rw [event_none hfr (by simp) (by simp)]
    refine bufStep_stay hi hfr (g := []) rfl (by simp [Act.token]) rfl (fun _ => rfl) fun m => ?_
    rcases eq_or_ne m n with rfl | hne
    · simp
    · simp [hne]
  | @releaseOther l type ws htodo =>
    rw [event_none hfr (by simp) (by simp)]
    exact bufStep_stay hi hfr (g := [_]) rfl (by simp [Act.token]) rfl
      (filterMap_dequeue_other htodo) fun _ => rfl
  | readNothing hnew =>
    rw [event_read hfr hs (by rw [TxnState.setFrames_frames, Function.update_self])
      (by rcases hnew with rfl | rfl <;> simp [Act.token])]
    refine bufStep_stay hi hfr rfl ?_ rfl (fun _ => rfl) fun _ => rfl
    rcases hnew with rfl | rfl <;> simp [Act.token]
  | readOther hl htodo hnew =>
    rw [event_read hfr hs (by rw [TxnState.setFrames_frames, Function.update_self])
      (by rcases hnew with rfl | rfl <;> simp [Act.token])]
    refine bufStep_stay hi hfr rfl ?_ rfl (filterMap_dequeue_other htodo) fun _ => rfl
    rcases hnew with rfl | rfl <;> simp [Act.token]
  | @deliver x t =>
    rw [event_none hfr (by simp) (by simp)]
    exact bufStep_deliver hi hs hfr
  | @freeLinked t T p b s₁ hT hp hb hs₁ =>
    rw [event_none hfr (by simp) (by simp)]
    exact bufStep_freeLinked hi hfr hT hb hs₁
  | @freeBufLinked b B t T hB ht hT =>
    rw [event_none hfr (by simp) (by simp)]
    exact bufStep_freeBufLinked hi hfr hB
  | @sendAlloc x tp n irt th oneWay =>
    rw [event_none hfr (by simp) (by simp)]
    exact bufStep_sendAlloc hi hfr
  | @buildReply x t r y s₁ hd hpop =>
    rw [event_none hfr (by simp) (by simp)]
    exact bufStep_buildReply hi hfr hd hpop
  | @accepted x t th T b B n s₁ hT hb hB hn hpt =>
    have hev : event s (s₁.setFrames a rest) (.run a env) = .accepted t := by simp [event, hfr]
    rw [hev]
    exact bufStep_accepted hi hs hfr hT hb hB hn hpt
  | @rejected x t th T b B n s₁ hT hb hB hn hpt =>
    have hlen : (if T.oneWay then [] else [Act.popTransaction x t]) ++ .unwind t none :: rest ≠ rest := by
      intro h
      have := congrArg List.length h
      rw [List.length_append, List.length_cons] at this
      omega
    have hev : event s (s₁.setFrames a ((if T.oneWay then [] else [.popTransaction x t]) ++
        .unwind t none :: rest)) (.run a env) = .none := by
      simp only [event, hfr, TxnState.setFrames_frames, Function.update_self, if_neg hlen]
    rw [hev]
    exact bufStep_rejected hi hfr hT hb hB hn hpt
  | @unwind t irt T b hT hb =>
    rw [event_none hfr (by simp) (by simp)]
    exact bufStep_unwind hi hfr hT hb
  | @asyncNot b B hB hno =>
    rw [event_none hfr (by simp) (by simp)]
    exact .pass b B hB hno (moves_release hi hfr rfl hB rfl (fun _ _ => Iff.rfl) rfl) (fun _ => rfl)
      fun _ => rfl
  | @asyncLast b B n hB ha hn htodo =>
    rw [event_none hfr (by simp) (by simp)]
    exact bufStep_asyncLast hi hfr hB ha hn htodo
  | @freeBufRelease b B hB ht =>
    rw [event_none hfr (by simp) (by simp)]
    exact bufStep_freeBufRelease hi hfr hB
  | @readTransaction x procWork l t ws hwhere htodo =>
    have hev (s₁ : TxnState) : event s (s₁.setFrames a (.deliver x t :: .read x procWork :: rest))
        (.run a env) = .dequeued t := by simp [event, hfr]
    rw [hev]
    exact bufStep_readTransaction hi hfr hwhere htodo
  | @releaseTransaction l t ws htodo =>
    rw [event_none hfr (by simp) (by simp)]
    exact bufStep_releaseTransaction hi hi' hs hfr htodo
  | @deliverFail x t T b B hT hb hB =>
    rw [event_none hfr (by simp) (by simp)]
    exact bufStep_deliverFail hi hs hfr hT hb hB
  | @copy x t T b B hT hb hB =>
    rw [event_none hfr (by simp) (by simp)]
    exact bufStep_copy hi hfr hT hb hB
  | @copyFail x t hok =>
    rw [event_none hfr (by simp) (by simp)]
    exact bufStep_copyFail hi hi' hfr hok
  | @asyncNext b B n w ws hB ha hn hset htodo =>
    rw [event_none hfr (by simp) (by simp)]
    exact bufStep_asyncNext hi hs hfr hB ha hn htodo

/-! ## All steps -/

/-- Nothing about the buffers changes. -/
theorem bufStep_other (hbuf : s'.buf = s.buf) (hk : ∀ k, Acting s' k ↔ Acting s k)
    (htodo : ∀ l, (s'.todo l).filterMap Work.txn? = (s.todo l).filterMap Work.txn?)
    (hnode : s'.node = s.node) : BufStep L s op s' .none :=
  .stay (fun b => .of_buf (by rw [hbuf]) (fun k _ => hk k) fun t _ => mem_todo_of_same htodo t)
    (fun n => by rw [hnode]) fun n => htodo (.node n)

/-- An idle task starts with acts that hold nothing. -/
theorem acting_start (hfr : s.frames a = []) (hnew : ∀ act ∈ g, act.token = none) (k : Token) :
    Acting (s.setFrames a g) k ↔ Acting s k := by
  constructor
  · rintro ⟨a', act, hact, hk⟩
    rcases eq_or_ne a' a with rfl | hne
    · rw [TxnState.setFrames_frames, Function.update_self] at hact
      rw [hnew act hact] at hk
      cases hk
    · rw [TxnState.setFrames_frames, Function.update_of_ne hne] at hact
      exact ⟨a', act, hact, hk⟩
  · rintro ⟨a', act, hact, hk⟩
    have hne : a' ≠ a := by
      rintro rfl
      rw [hfr] at hact
      cases hact
    exact ⟨a', act, by rw [TxnState.setFrames_frames, Function.update_of_ne hne]; exact hact, hk⟩

theorem Same.trans {s₂ : TxnState} (h : Same s s₁ b) (h' : Same s₁ s₂ b) : Same s s₂ b :=
  ⟨h'.kind.trans h.kind, fun ph => (h'.phase ph).trans (h.phase ph)⟩

/-- The loop of `binder_thread_release` takes buffers off transactions that have reached user
space. -/
theorem releaseStack_same {fuel : Nat} {o : Option TxnId} (hi : Inv L s)
    (ho : ∀ t, o = some t → Stackable s.contents s x t)
    (he : TxnState.releaseStack x fuel s o = some s') : ∀ b, Same s s' b := by
  refine (releaseStack_rule (I := fun s₁ o => (Inv L s₁ ∧ ∀ u, o = some u →
    Stackable s₁.contents s₁ x u) ∧ ∀ b, Same s s₁ b) ?_ ⟨⟨hi, ho⟩, fun b => ⟨rfl, fun _ => Iff.rfl⟩⟩
    he).2
  rintro s₁ t s₂ o ⟨⟨hi₁, ho₁⟩, hsame⟩ ht
  refine ⟨hi₁.turn (ho₁ t rfl) ht, fun b' => (hsame b').trans ?_⟩
  cases ht with
  | served T b B hT hx hb hB =>
    rcases eq_or_ne b' b with rfl | hne
    · refine .unlink hB (by simp) (fun u hu => ?_) fun _ _ => Iff.rfl
      obtain ⟨U, hU, hUb⟩ := hu.txn hi₁
      rw [hi₁.links.inj hU hT hUb hb]
      exact (ho₁ t rfl).2 T hT hx
    · exact .of_buf (by simp [hne]) (fun _ _ => Iff.rfl) fun _ _ _ => Iff.rfl
  | unlinked | sent => exact .of_buf rfl (fun _ _ => Iff.rfl) fun _ _ _ => Iff.rfl

theorem threadRelease_bufStep {fuel : Nat} (hi : Inv L s) (hfr : s.frames a = [])
    (he : s.threadRelease a x fuel = some s') : BufStep L s op s' .none := by
  obtain ⟨-, s₁, hs₁, g, hnew, rfl⟩ := threadRelease_eq he
  have h₀ : Inv L (s.setThread x { s.thread x with isDead := true }) := by
    refine hi.other ⟨rfl, rfl, fun z => ?_, rfl, rfl⟩ rfl (fun _ => rfl) rfl
    rcases eq_or_ne z x with rfl | hne
    · simp
    · simp [hne]
  obtain ⟨-, hfr₁, htodo₁, -, hnode₁, -⟩ := h₀.releaseStack (fun t ht => hi.parents.stack ht) hs₁
  have hsame := releaseStack_same h₀ (fun t ht => hi.parents.stack ht) hs₁
  have htok : ∀ act ∈ g, act.token = none := by
    intro act hact
    rcases hnew act hact with rfl | ⟨t, T, rfl, -⟩ <;> rfl
  refine .stay (fun b => ?_) (fun n => ?_) fun n => ?_
  · have hkill : Same s (s.setThread x { s.thread x with isDead := true }) b :=
      .of_buf rfl (fun _ _ => Iff.rfl) fun _ _ _ => Iff.rfl
    refine hkill.trans ((hsame b).trans ?_)
    exact .of_buf rfl (fun k _ => acting_start (by rw [hfr₁]; exact hfr) htok k) fun _ _ _ => Iff.rfl
  · rw [TxnState.setFrames_node, hnode₁]; rfl
  · simp only [TxnState.contents, TxnState.setFrames_todo, htodo₁]; rfl

theorem exec_bufStep (hi : Inv L s) (hs : Sched L s) (he : s.exec L op = some s') :
    BufStep L s op s' (event s s' op) := by
  have hi' := hi.exec hs he
  cases op with
  | transaction x n oneWay =>
    simp only [TxnState.exec, bind, Option.bind_eq_some_iff, Option.guard_eq_some',
      exists_const] at he
    obtain ⟨hidle, tp, -, he⟩ := he
    cases he
    exact bufStep_other rfl (acting_start (frames_of_idle hidle) (by simp [Act.token])) (fun _ => rfl) rfl
  | reply x oneWay =>
    simp only [TxnState.exec, bind, Option.bind_eq_some_iff, Option.guard_eq_some',
      exists_const] at he
    obtain ⟨hidle, irt, -, T, -, -, he⟩ := he
    cases he
    have hfr : s.frames (.thread x) = [] := frames_of_idle hidle
    have hfr : (s.setStack x T.toParent).frames (.thread x) = [] := hfr
    exact bufStep_other rfl (acting_start hfr (by simp [Act.token])) (fun _ => rfl) rfl
  | read x =>
    simp only [TxnState.exec, bind, Option.bind_eq_some_iff, Option.guard_eq_some',
      exists_const] at he
    obtain ⟨hidle, he⟩ := he
    cases he
    exact bufStep_other rfl (acting_start (frames_of_idle hidle) (by simp [Act.token])) (fun _ => rfl) rfl
  | freeBuffer x b =>
    simp only [TxnState.exec, bind, Option.bind_eq_some_iff, Option.guard_eq_some',
      exists_const] at he
    obtain ⟨hidle, B, hB, -, hu, he⟩ := he
    cases he
    have hfr := frames_of_idle hidle
    refine .toFree b .user (.inr rfl) ⟨⟨B, hB, hu⟩, ⟨by simp, .thread x, .freeBuf b, by simp, rfl⟩,
      by simp [hB, Buffer.kind], fun b' hne => ?_⟩ (fun _ => rfl) fun _ => rfl
    refine .of_buf (by simp [hne]) (fun k hk => ?_) fun _ _ _ => Iff.rfl
    constructor
    · rintro ⟨a', act, hact, hk'⟩
      rcases eq_or_ne a' (.thread x) with rfl | hne'
      · rw [TxnState.setFrames_frames, Function.update_self, List.mem_singleton] at hact
        rw [hact] at hk'
        cases hk'
        exact absurd (show b = b' from hk).symm hne
      · rw [TxnState.setFrames_frames, Function.update_of_ne hne'] at hact
        exact ⟨a', act, hact, hk'⟩
    · rintro ⟨a', act, hact, hk'⟩
      have hne' : a' ≠ .thread x := by
        rintro rfl
        rw [hfr] at hact
        cases hact
      exact ⟨a', act, by rw [TxnState.setFrames_frames, Function.update_of_ne hne']; exact hact, hk'⟩
  | threadExit x fuel =>
    simp only [TxnState.exec, bind, Option.bind_eq_some_iff, Option.guard_eq_some',
      exists_const] at he
    exact threadRelease_bufStep hi (frames_of_idle he.1) he.2
  | procDeath p =>
    cases he
    exact bufStep_other rfl (fun _ => Iff.rfl) (fun _ => rfl) rfl
  | releaseThread p x fuel =>
    simp only [TxnState.exec, bind, Option.bind_eq_some_iff, Option.guard_eq_some',
      exists_const, TxnState.workerIdle, Bool.and_eq_true, List.isEmpty_iff] at he
    exact threadRelease_bufStep hi he.1.1 he.2.2.2
  | releaseNode p n =>
    simp only [TxnState.exec, bind, Option.bind_eq_some_iff, Option.guard_eq_some',
      exists_const, TxnState.workerIdle, Bool.and_eq_true, List.isEmpty_iff] at he
    obtain ⟨⟨hfr, -⟩, -, he⟩ := he
    cases he
    exact bufStep_other rfl (acting_start hfr (by simp [Act.token])) (fun _ => rfl) rfl
  | releaseTodo p =>
    simp only [TxnState.exec, bind, Option.bind_eq_some_iff, Option.guard_eq_some',
      exists_const, TxnState.workerIdle, Bool.and_eq_true, List.isEmpty_iff] at he
    obtain ⟨⟨hfr, -⟩, he⟩ := he
    cases he
    exact bufStep_other rfl (acting_start hfr (by simp [Act.token])) (fun _ => rfl) rfl
  | addProcWork p type =>
    cases he
    exact bufStep_other rfl (fun _ => Iff.rfl) filterMap_enqueue_other rfl
  | addThreadWork x type deferred =>
    simp only [TxnState.exec, bind, Option.bind_eq_some_iff, Option.guard_eq_some',
      exists_const] at he
    obtain ⟨-, he⟩ := he
    split at he <;> cases he
    · exact bufStep_other rfl (fun _ => Iff.rfl) filterMap_enqueue_other rfl
    · exact bufStep_other rfl (fun _ => Iff.rfl) filterMap_enqueue_other rfl
  | dropWork l type =>
    cases he
    refine bufStep_other rfl (fun _ => Iff.rfl) (fun l' => ?_) rfl
    rcases eq_or_ne l' l with rfl | hne
    · rw [TxnState.setTodo_todo, Function.update_self, filterMap_erase_other]
    · rw [TxnState.setTodo_todo, Function.update_of_ne hne]
  | run a env =>
    simp only [TxnState.exec] at he
    split at he
    · cases he
    · exact execAct_bufStep hi hi' hs ‹_› (execAct_cases he)

end Redroid.Binder.Txn
