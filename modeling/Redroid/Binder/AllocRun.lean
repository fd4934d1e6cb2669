import Redroid.Binder.AllocInv

/-!
# Runs of the allocator

`allocSys`: the runs of one `binder_alloc` from a successful `binder_alloc_mmap_handler` on, with
allocations of any sizes, failing or not, and frees of allocated buffers in any order.

* `allocSys_rep`: the representation invariant in every state of every run; no call stops with a
  `BUG_ON`; a failing allocation changes no buffer; freeing all buffers, in any order, leaves one.
* `allocSys_async`: the space for async buffers is conserved in the runs without an async request
  of size 0.
-/

namespace Redroid.Binder

inductive AllocOp where
  | newBuf (env : PageEnv) (kzalloc : Option BufId)
      (dataSize offsetsSize extraBuffersSize : Nat) (isAsync : Bool)
  | freeBuf (id : BufId)
  | vmaClose

/-- The sizes are 64-bit values and `kzalloc` returns a new struct; a buffer that is freed is
allocated. -/
def AllocOp.Valid (alloc : BinderAlloc) : AllocOp → Prop
  | .newBuf _ kzalloc dataSize offsetsSize extraBuffersSize _ =>
    (∀ new ∈ kzalloc, new ∉ alloc.buffers.map (·.id)) ∧
      dataSize < 2 ^ 64 ∧ offsetsSize < 2 ^ 64 ∧ extraBuffersSize < 2 ^ 64
  | .freeBuf id => ∃ b ∈ alloc.buffers, b.id = id ∧ b.free = false
  | .vmaClose => True

instance (alloc : BinderAlloc) : (op : AllocOp) → Decidable (op.Valid alloc)
  | .newBuf .. => inferInstanceAs (Decidable (_ ∧ _))
  | .freeBuf id => inferInstanceAs (Decidable (∃ b ∈ alloc.buffers, b.id = id ∧ b.free = false))
  | .vmaClose => inferInstanceAs (Decidable True)

section Run

variable (rb : RbOps BufId)

/-- The call: the error, if it fails, and the state after it. -/
def BinderAlloc.exec (alloc : BinderAlloc) : AllocOp → Option (Option Errno × BinderAlloc)
  | .newBuf env kzalloc dataSize offsetsSize extraBuffersSize isAsync => do
    let (r, alloc') ←
      binderAllocNewBufLocked rb env kzalloc alloc dataSize offsetsSize extraBuffersSize isAsync
    match r with
    | .error e => some (some e, alloc')
    | .ok _ => some (none, alloc')
  | .freeBuf id => do
    let alloc' ← binderFreeBufLocked rb alloc id
    some (none, alloc')
  | .vmaClose => some (none, { alloc with vma := false })

/-- The runs of one allocator, from a successful `binder_alloc_mmap_handler` on. -/
def allocSys : Sys BinderAlloc AllocOp where
  init alloc := ∃ vma id, vma.WellFormed ∧
    binderAllocMmapHandler rb binderAllocInit vma true (some id) = some (none, alloc)
  step alloc op alloc' := op.Valid alloc ∧ ∃ r, alloc.exec rb op = some (r, alloc')

/-- The state after the calls `ops`, if they are valid and meet `C`. -/
def BinderAlloc.execIf (C : BinderAlloc → AllocOp → Prop) [∀ alloc op, Decidable (C alloc op)] :
    BinderAlloc → List AllocOp → Option BinderAlloc :=
  Sys.execIf (fun alloc op => (alloc.exec rb op).map Prod.snd) fun alloc op => op.Valid alloc ∧ C alloc op

/-- The representation invariant. -/
structure RepOk (alloc : BinderAlloc) : Prop where
  sorted : alloc.buffers.Pairwise fun a b => a.userData < b.userData
  first : alloc.buffers.head?.map (·.userData) = some alloc.buffer
  tiles : Tiles (fun _ => sizeofPtr) BinderBuffer.userData alloc.buffer alloc.stop alloc.buffers
  size : ∀ b ∈ alloc.buffers, ∃ n, alloc.binderAllocBufferSize b.id = some n ∧ sizeofPtr ≤ n
  aligned : ∀ b ∈ alloc.buffers, b.userData % sizeofPtr = 0
  freeTree : alloc.freeBuffers.toList.Perm (idsOf true alloc.buffers)
  allocTree : alloc.allocatedBuffers.toList.Perm (idsOf false alloc.buffers)
  noAdj : NoAdjacentFree alloc.buffers

/-- One free buffer covers the whole space. -/
def OneFree (alloc : BinderAlloc) : Prop :=
  ∃ b, alloc.buffers = [b] ∧ b.free = true ∧ b.userData = alloc.buffer ∧
    alloc.binderAllocBufferSize b.id = some alloc.bufferSize

end Run

variable {rb : RbOps BufId} {alloc alloc' : BinderAlloc} {op : AllocOp}

/-- A list of calls is a run. -/
theorem reachIf_execIf {C : BinderAlloc → AllocOp → Prop} [∀ alloc op, Decidable (C alloc op)]
    {ops : List AllocOp} (h : (allocSys rb).ReachIf C alloc) (he : alloc.execIf rb C ops = some alloc') :
    (allocSys rb).ReachIf C alloc' := by
  induction ops generalizing alloc with
  | nil =>
    cases he
    exact h
  | cons op ops ih =>
    simp only [BinderAlloc.execIf, Sys.execIf] at he
    split at he
    · rename_i hc
      obtain ⟨alloc₁, hone, he⟩ := Option.bind_eq_some_iff.mp he
      obtain ⟨⟨r, _⟩, hexec, rfl⟩ := Option.map_eq_some_iff.mp hone
      exact ih (h.step hc.2 ⟨hc.1, r, hexec⟩) he
    · cases he

theorem Inv.repOk (h : Inv alloc) : RepOk alloc where
  sorted := h.sorted
  first := by
    obtain ⟨b, rest, hl⟩ := List.exists_cons_of_ne_nil h.nonempty
    have ht := h.tiles
    rw [hl] at ht ⊢
    simp [ht.1]
  tiles := h.tiles.mono fun b => b.ptr_le_minLen
  size b hb := by
    obtain ⟨x, y, hl⟩ := List.append_of_mem hb
    obtain ⟨h1, h2, -, -⟩ := h.size hl
    have := b.ptr_le_minLen
    exact ⟨_, h.bufferSize hl, by omega⟩
  aligned := h.aligned
  freeTree := h.freeTree
  allocTree := h.allocTree
  noAdj := h.noAdj

/-- The first buffer. -/
theorem Inv.init {vma : Vma} {id : BufId} (hv : vma.WellFormed)
    (h : binderAllocMmapHandler rb binderAllocInit vma true (some id) = some (none, alloc)) :
    Inv alloc ∧ alloc.freeAsyncSpace = alloc.bufferSize / 2 ∧ alloc.bufferSize ≤ sz4M ∧
      ∀ b ∈ alloc.buffers, b.free = true := by
  have hs : subSize vma.vmEnd vma.vmStart = vma.vmEnd - vma.vmStart :=
    subSize_eq (Nat.le_of_lt hv.lt) hv.bound
  have hlt := hv.lt
  have hst := hv.start
  have hsp := hv.stop
  have hbd := hv.bound
  let n := min (vma.vmEnd - vma.vmStart) sz4M
  let alloc₁ : BinderAlloc := { binderAllocInit with
    bufferSize := n, buffer := vma.vmStart, buffers := [.zeroed id vma.vmStart] }
  have hcore : Core alloc₁ := by
    refine ⟨⟨rfl, vma.vmStart + n, ?_, rfl⟩, ?_, by simp [alloc₁], by simp [alloc₁, BinderBuffer.zeroed],
      ?_, ?_⟩
    · show vma.vmStart + sizeofPtr ≤ vma.vmStart + n
      simp only [n]
      unfold sizeofPtr sz4M pageSize at *
      omega
    · simp only [alloc₁, List.mem_singleton, forall_eq, BinderBuffer.zeroed]
      unfold sizeofPtr pageSize at *
      omega
    · simp only [alloc₁, BinderAlloc.stop, n]
      unfold sz4M
      omega
    · simp only [alloc₁, BinderAlloc.stop, n]
      unfold sizeofPtr sz4M pageSize at *
      omega
  obtain ⟨t, hins, hperm⟩ := binderInsertFreeBuffer_spec rb hcore (fun _ h => by cases h)
    (show BinderBuffer.zeroed id vma.vmStart ∈ alloc₁.buffers by simp [alloc₁]) rfl
  have heq : binderAllocMmapHandler rb binderAllocInit vma true (some id) = some (none,
      { alloc₁ with freeBuffers := t, freeAsyncSpace := n / 2, vma := true }) := by
    unfold binderAllocMmapHandler
    rw [hs]
    exact Option.bind_eq_some_iff.mpr ⟨_, hins, rfl⟩
  rw [heq] at h
  cases h
  refine ⟨⟨⟨hcore.tiles, hcore.aligned, hcore.ids, hcore.txn, hcore.bound, hcore.stopAligned⟩, hperm,
    List.Perm.refl _, List.isChain_singleton _, by simp [alloc₁]⟩, rfl, Nat.min_le_right _ _,
    by simp [alloc₁, BinderBuffer.zeroed]⟩

/-- No allocated buffer has a transaction. -/
def Idle (alloc : BinderAlloc) : Prop :=
  ∀ b ∈ alloc.buffers, b.free = false → b.transaction = none

theorem Idle.of_filter {l : List BinderBuffer} (h : Idle alloc) (hl : ∀ b ∈ l, b ∈ alloc.buffers)
    (hfilter : alloc'.buffers.filter (!·.free) = l.filter (!·.free)) : Idle alloc' := fun b hb hf => by
  have hmem : b ∈ alloc'.buffers.filter (!·.free) := List.mem_filter.mpr ⟨hb, by simp [hf]⟩
  rw [hfilter] at hmem
  exact h b (hl b (List.mem_filter.mp hmem).1) hf

theorem Idle.newBuf {id : BufId} {dataSize offsetsSize extraBuffersSize : Nat} {isAsync : Bool}
    (h : Idle alloc) (hinv : Inv alloc)
    (hnew : NewBuf alloc alloc' id dataSize offsetsSize extraBuffersSize isAsync) : Idle alloc' := by
  obtain ⟨x, b, y, rest, hl, -, hf, hl', hrest, -⟩ := hnew.list
  intro c hc hcf
  rw [hl'] at hc
  simp only [List.mem_append, List.mem_cons] at hc
  rcases hc with hc | rfl | hc | hc
  · exact h c (by rw [hl]; simp [hc]) hcf
  · exact hinv.txn b (by rw [hl]; simp) hf
  · simp [hrest c hc] at hcf
  · exact h c (by rw [hl]; simp [hc]) hcf

/-- One call: it ends, keeps the invariant and the address space, and if it fails, only pages
have changed. -/
theorem Inv.exec (h : Inv alloc) (hidle : Idle alloc) (rb : RbOps BufId) (hv : op.Valid alloc) :
    ∃ r alloc', alloc.exec rb op = some (r, alloc') ∧ Inv alloc' ∧ Idle alloc' ∧
      alloc'.buffer = alloc.buffer ∧ alloc'.bufferSize = alloc.bufferSize ∧
      ∀ e, r = some e → alloc' = { alloc with pages := alloc'.pages } := by
  cases op with
  | newBuf env kzalloc dataSize offsetsSize extraBuffersSize isAsync =>
    have hspec : NewBufOk alloc dataSize offsetsSize extraBuffersSize isAsync _ :=
      binderAllocNewBufLocked_spec rb env kzalloc h hv.1
    obtain ⟨r, alloc', heq, hinv, hsame, herr, hnew⟩ := hspec
    cases r with
    | error e =>
      have hidle' : Idle alloc' := by
        rw [herr e rfl]
        exact hidle
      exact ⟨some e, alloc', by simp [BinderAlloc.exec, heq], hinv, hidle', hsame.1, hsame.2.1,
        fun _ _ => herr e rfl⟩
    | ok id =>
      exact ⟨none, alloc', by simp [BinderAlloc.exec, heq], hinv, hidle.newBuf h (hnew id rfl), hsame.1,
        hsame.2.1, by simp⟩
  | freeBuf id =>
    obtain ⟨b, hb, rfl, hf⟩ := hv
    obtain ⟨x, y, hl⟩ := List.append_of_mem hb
    obtain ⟨alloc', heq, hinv, hsame, -, hfilter, -⟩ := binderFreeBufLocked_spec rb h hl hf (hidle b hb hf)
    have hsub : ∀ c ∈ x ++ y, c ∈ alloc.buffers := fun c hc => by
      rw [hl]
      simp only [List.mem_append, List.mem_cons] at hc ⊢
      tauto
    exact ⟨none, alloc', by simp [BinderAlloc.exec, heq], hinv, hidle.of_filter hsub hfilter, hsame.1,
      hsame.2.1, by simp⟩
  | vmaClose =>
    exact ⟨none, { alloc with vma := false }, rfl,
      ⟨⟨h.tiles, h.aligned, h.ids, h.txn, h.bound, h.stopAligned⟩, h.freeTree, h.allocTree, h.noAdj,
        h.nonempty⟩, hidle, rfl, rfl, by simp⟩

theorem allocSys_inv (h : (allocSys rb).Reach alloc) : Inv alloc ∧ Idle alloc := by
  refine Sys.Reach.inv (I := fun alloc => Inv alloc ∧ Idle alloc) ?_ ?_ h
  · rintro alloc ⟨vma, id, hv, heq⟩
    obtain ⟨hinv, -, -, hfree⟩ := Inv.init hv heq
    exact ⟨hinv, fun b hb hf => by simp [hfree b hb] at hf⟩
  · rintro alloc op alloc' ⟨hinv, hidle⟩ ⟨hv, r, heq⟩
    obtain ⟨r', alloc₁, heq₁, hinv₁, hidle₁, -⟩ := hinv.exec hidle rb hv
    rw [heq] at heq₁
    cases heq₁
    exact ⟨hinv₁, hidle₁⟩

/-! ## Freeing everything -/

theorem Inv.oneFree (h : Inv alloc) (hn : idsOf false alloc.buffers = []) : OneFree alloc := by
  have hfree : ∀ b ∈ alloc.buffers, b.free = true := fun b hb => by
    by_contra hf
    have : b.id ∈ idsOf false alloc.buffers := mem_idsOf.mpr ⟨b, hb, by simpa using hf, rfl⟩
    rw [hn] at this
    cases this
  have hrep := h.repOk
  have hna := h.noAdj
  cases hl : alloc.buffers with
  | nil => exact absurd hl h.nonempty
  | cons a rest =>
    cases rest with
    | nil =>
      obtain ⟨hs, -⟩ := h.size (x := []) hl
      have ht := h.tiles
      have hle := h.tiles.le
      have hsz := h.bufferSize (x := []) hl
      rw [hl] at ht
      refine ⟨a, hl, hfree a (by simp [hl]), ht.1, ?_⟩
      rw [hsz, hs, ht.1]
      simp [BinderAlloc.stop]
    | cons c rest =>
      rw [hl] at hna hfree
      exact absurd ⟨hfree a (by simp), hfree c (by simp)⟩ (List.isChain_cons_cons.mp hna).1

/-- Freeing one of the allocated buffers leaves the others allocated. -/
theorem Inv.free (h : Inv alloc) (hidle : Idle alloc) (rb : RbOps BufId) {id : BufId}
    {rest : List BufId} (hp : (id :: rest).Perm (idsOf false alloc.buffers)) :
    ∃ alloc', binderFreeBufLocked rb alloc id = some alloc' ∧ Inv alloc' ∧ Idle alloc' ∧
      alloc'.buffer = alloc.buffer ∧ alloc'.bufferSize = alloc.bufferSize ∧
      rest.Perm (idsOf false alloc'.buffers) := by
  obtain ⟨b, hb, hf, rfl⟩ := mem_idsOf.mp (hp.subset List.mem_cons_self)
  obtain ⟨x, y, hl⟩ := List.append_of_mem hb
  obtain ⟨alloc', heq, hinv, hsame, -, hfilter, -⟩ := binderFreeBufLocked_spec rb h hl hf (hidle b hb hf)
  have hsub : ∀ c ∈ x ++ y, c ∈ alloc.buffers := fun c hc => by
    rw [hl]
    simp only [List.mem_append, List.mem_cons] at hc ⊢
    tauto
  refine ⟨alloc', heq, hinv, hidle.of_filter hsub hfilter, hsame.1, hsame.2.1, ?_⟩
  have hids : idsOf false alloc'.buffers = idsOf false (x ++ y) := by
    simp only [idsOf, beq_false, hfilter]
  rw [hl, idsOf_append, idsOf_cons_eq hf] at hp
  rw [hids, idsOf_append]
  exact (hp.trans List.perm_middle).cons_inv

theorem Inv.freeAll (h : Inv alloc) (hidle : Idle alloc) (rb : RbOps BufId) {order : List BufId}
    (hp : order.Perm (idsOf false alloc.buffers)) :
    ∃ alloc', order.foldlM (binderFreeBufLocked rb) alloc = some alloc' ∧ Inv alloc' ∧
      alloc'.buffer = alloc.buffer ∧ alloc'.bufferSize = alloc.bufferSize ∧ OneFree alloc' := by
  induction order generalizing alloc with
  | nil => exact ⟨alloc, rfl, h, rfl, rfl, h.oneFree hp.nil_eq.symm⟩
  | cons id rest ih =>
    obtain ⟨alloc₁, heq₁, hinv₁, hidle₁, hb₁, hs₁, hp₁⟩ := h.free hidle rb hp
    obtain ⟨alloc', heq, hinv, hb, hs, hone⟩ := ih hinv₁ hidle₁ hp₁
    exact ⟨alloc', by simp [List.foldlM_cons, heq₁, heq], hinv, hb.trans hb₁, hs.trans hs₁, hone⟩

theorem Inv.releaseAllocated (h : Inv alloc) (hidle : Idle alloc) (rb : RbOps BufId) {fuel : Nat}
    (hfuel : alloc.allocatedBuffers.toList.length ≤ fuel) :
    ∃ alloc', releaseAllocated rb fuel alloc = some alloc' ∧ OneFree alloc' := by
  induction fuel generalizing alloc with
  | zero =>
    have hnil : alloc.allocatedBuffers.toList = [] := List.length_eq_zero_iff.mp (by omega)
    refine ⟨alloc, by simp [Binder.releaseAllocated, RbTree.first, hnil], h.oneFree ?_⟩
    exact (hnil ▸ h.allocTree).nil_eq.symm
  | succ fuel ih =>
    cases hl : alloc.allocatedBuffers.toList with
    | nil =>
      refine ⟨alloc, by simp [Binder.releaseAllocated, RbTree.first, hl], h.oneFree ?_⟩
      exact (hl ▸ h.allocTree).nil_eq.symm
    | cons id rest =>
      obtain ⟨alloc₁, heq₁, hinv₁, hidle₁, -, -, hp₁⟩ := h.free hidle rb (hl ▸ h.allocTree)
      have hlen : alloc₁.allocatedBuffers.toList.length ≤ fuel := by
        rw [hinv₁.allocTree.length_eq, ← hp₁.length_eq]
        rw [hl, List.length_cons] at hfuel
        omega
      obtain ⟨alloc', heq, hone⟩ := ih hinv₁ hidle₁ hlen
      exact ⟨alloc', by simp [Binder.releaseAllocated, RbTree.first, hl, heq₁, heq], hone⟩

/-- **The allocator keeps its representation.** In every state of every run: the invariant holds;
the next call, whatever it is, ends without a `BUG_ON`, and if it fails, the list, the trees and
the space for async buffers are unchanged; freeing all allocated buffers, in any order, leaves one
free buffer that covers the space; and `binder_alloc_deferred_release` does not warn. -/
theorem allocSys_rep (h : (allocSys rb).Reach alloc) :
    RepOk alloc ∧
    (∀ op : AllocOp, op.Valid alloc → ∃ r alloc', alloc.exec rb op = some (r, alloc') ∧
      ∀ e, r = some e → alloc' = { alloc with pages := alloc'.pages }) ∧
    (∀ order : List BufId, order.Perm (idsOf false alloc.buffers) →
      ∃ alloc', order.foldlM (binderFreeBufLocked rb) alloc = some alloc' ∧
        alloc'.buffer = alloc.buffer ∧ alloc'.bufferSize = alloc.bufferSize ∧ OneFree alloc') ∧
    (alloc.vma = false → ∀ fuel, alloc.allocatedBuffers.toList.length ≤ fuel →
      binderAllocDeferredRelease rb fuel alloc = some false) := by
  obtain ⟨hinv, hidle⟩ := allocSys_inv h
  refine ⟨hinv.repOk, fun op hv => ?_, fun order hp => ?_, fun hvma fuel hfuel => ?_⟩
  · obtain ⟨r, alloc', heq, -, -, -, -, herr⟩ := hinv.exec hidle rb hv
    exact ⟨r, alloc', heq, herr⟩
  · obtain ⟨alloc', heq, -, hb, hs, hone⟩ := hinv.freeAll hidle rb hp
    exact ⟨alloc', heq, hb, hs, hone⟩
  · obtain ⟨alloc', heq, b, hl, hf, -⟩ := hinv.releaseAllocated hidle rb hfuel
    simp [binderAllocDeferredRelease, hvma, heq, hl, releaseWarns, hf]

/-- A mapping of two pages. -/
def twoPages : Vma := ⟨0x10000, 0x12000, 0⟩

theorem twoPages_wellFormed : twoPages.WellFormed := ⟨by decide, by decide, by decide, by decide⟩

/-- Pages are there and the kernel gives memory. -/
def plenty : PageEnv := ⟨true, fun _ => true, fun _ => true⟩

/-- The allocator of the mapping. -/
def twoPagesAlloc : BinderAlloc :=
  ((binderAllocMmapHandler (.unbalanced BufId) binderAllocInit twoPages true (some 1)).get (by decide)).2

theorem twoPagesAlloc_reach {C : BinderAlloc → AllocOp → Prop} :
    (allocSys (.unbalanced BufId)).ReachIf C twoPagesAlloc :=
  .init ⟨twoPages, 1, twoPages_wellFormed, rfl⟩

/-- Two buffers are split off, a third one is too large; the first is freed, its place is split for a
smaller one, and that is freed and merged with the rest. -/
def churn : List AllocOp :=
  [.newBuf plenty (some 2) 1000 0 0 false, .newBuf plenty (some 3) 2000 8 0 false,
    .newBuf plenty (some 4) 6000 0 0 false, .freeBuf 1, .newBuf plenty (some 4) 500 0 0 false, .freeBuf 1]

def churned : BinderAlloc :=
  (twoPagesAlloc.execIf (.unbalanced BufId) (fun _ _ => True) churn).get (by decide)

theorem churned_reach : (allocSys (.unbalanced BufId)).Reach churned :=
  reachIf_execIf twoPagesAlloc_reach (Option.some_get _).symm

/-- After the run the free buffers 1 and 3 are on both sides of the buffer 2; a request for more than each
of them has fails without a trace, and freeing the buffer 2 leaves one free buffer. -/
theorem allocSys_rep_churned : idsOf true churned.buffers = [1, 3] ∧ idsOf false churned.buffers = [2] ∧
    RepOk churned ∧
    (∃ alloc', churned.exec (.unbalanced BufId) (.newBuf plenty (some 4) 5200 0 0 false) =
      some (some .ENOSPC, alloc') ∧ alloc' = { churned with pages := alloc'.pages }) ∧
    ∃ alloc', [2].foldlM (binderFreeBufLocked (.unbalanced BufId)) churned = some alloc' ∧ OneFree alloc' := by
  obtain ⟨hrep, hcall, hfree, -⟩ := allocSys_rep churned_reach
  obtain ⟨r, alloc', heq, herr⟩ := hcall (.newBuf plenty (some 4) 5200 0 0 false) (by decide)
  have hr : r = some .ENOSPC := (Prod.mk.inj (Option.some.inj (heq.symm.trans rfl))).1
  obtain ⟨alloc'', heq', -, -, hone⟩ := hfree [2] (by decide)
  exact ⟨rfl, rfl, hrep, ⟨alloc', hr ▸ heq, herr _ hr⟩, alloc'', heq', hone⟩

/-! ## The space for async buffers -/

/-- What `binder_alloc_new_buf_locked` charges for an async buffer. -/
def BinderBuffer.charge (b : BinderBuffer) : Nat :=
  max b.contentSize sizeofPtr + sizeofBinderBuffer

/-- The buffers that are allocated for async transactions. -/
def asyncBuffers (l : List BinderBuffer) : List BinderBuffer :=
  (l.filter (!·.free)).filter (·.asyncTransaction)

/-- What is charged for them together. -/
def charged (l : List BinderBuffer) : Nat := ((asyncBuffers l).map (·.charge)).sum

/-- The space for async buffers is conserved: what is free and what is charged add up to the half
of the buffer; so the free space is at most that, and equal to it without async buffers. -/
structure AsyncOk (alloc : BinderAlloc) : Prop where
  conserved : alloc.freeAsyncSpace + charged alloc.buffers = alloc.bufferSize / 2
  le : alloc.freeAsyncSpace ≤ alloc.bufferSize / 2
  back : asyncBuffers alloc.buffers = [] → alloc.freeAsyncSpace = alloc.bufferSize / 2

/-- The charge of the call from `alloc` to `alloc'` does not underflow. -/
def ChargeOk (rb : RbOps BufId) (alloc : BinderAlloc) : AllocOp → Prop
  | .newBuf env kzalloc dataSize offsetsSize extraBuffersSize true => ∀ id alloc' size,
    binderAllocNewBufLocked rb env kzalloc alloc dataSize offsetsSize extraBuffersSize true =
      some (.ok id, alloc') → requestSize dataSize offsetsSize extraBuffersSize = .ok size →
    max size sizeofPtr + sizeofBinderBuffer ≤ alloc.freeAsyncSpace
  | _ => True

/-- The call is no async request of size 0. -/
def NonzeroAsync (_ : BinderAlloc) : AllocOp → Prop
  | .newBuf _ _ dataSize offsetsSize extraBuffersSize isAsync =>
    isAsync = true → ¬ (dataSize = 0 ∧ offsetsSize = 0 ∧ extraBuffersSize = 0)
  | _ => True

instance (alloc : BinderAlloc) : (op : AllocOp) → Decidable (NonzeroAsync alloc op)
  | .newBuf .. => inferInstanceAs (Decidable (_ → _))
  | .freeBuf _ | .vmaClose => inferInstanceAs (Decidable True)

/-- A request of size 0 has no data, no offsets and no extra buffers. -/
theorem requestSize_zero {dataSize offsetsSize extraBuffersSize : Nat}
    (h : requestSize dataSize offsetsSize extraBuffersSize = .ok 0) :
    dataSize = 0 ∧ offsetsSize = 0 ∧ extraBuffersSize = 0 := by
  simp only [requestSize] at h
  split at h
  · cases h
  split at h
  · cases h
  rename_i h1 h2
  have h0 : addSize (addSize (alignPtr dataSize) (alignPtr offsetsSize))
      (alignPtr extraBuffersSize) = 0 := by simpa using h
  rw [h0] at h2
  omega

theorem charged_append {l₁ l₂ : List BinderBuffer} :
    charged (l₁ ++ l₂) = charged l₁ + charged l₂ := by
  simp [charged, asyncBuffers]

theorem charged_free {l : List BinderBuffer} (h : ∀ b ∈ l, b.free = true) : charged l = 0 := by
  have : l.filter (!·.free) = [] := List.filter_eq_nil_iff.mpr fun b hb => by simp [h b hb]
  simp [charged, asyncBuffers, this]

theorem charged_cons {b : BinderBuffer} {l : List BinderBuffer} : charged (b :: l) =
    (if b.free = false ∧ b.asyncTransaction = true then b.charge else 0) + charged l := by
  cases hf : b.free <;> cases ha : b.asyncTransaction <;> simp [charged, asyncBuffers, hf, ha]

/-- What carries the conservation: no async buffer is empty. -/
structure AsyncInv (alloc : BinderAlloc) : Prop extends Inv alloc where
  idle : Idle alloc
  space : alloc.bufferSize ≤ sz4M
  conserved : alloc.freeAsyncSpace + charged alloc.buffers = alloc.bufferSize / 2
  nonzero : ∀ b ∈ alloc.buffers, b.free = false → b.asyncTransaction = true →
    sizeofPtr ≤ b.contentSize

theorem AsyncInv.asyncOk (h : AsyncInv alloc) : AsyncOk alloc := by
  have hc := h.conserved
  refine ⟨hc, by omega, fun hn => ?_⟩
  have : charged alloc.buffers = 0 := by simp [charged, hn]
  omega

theorem AsyncInv.init {vma : Vma} {id : BufId} (hv : vma.WellFormed)
    (h : binderAllocMmapHandler rb binderAllocInit vma true (some id) = some (none, alloc)) :
    AsyncInv alloc := by
  obtain ⟨hinv, hasync, hspace, hfree⟩ := Inv.init hv h
  exact ⟨hinv, fun b hb hf => by simp [hfree b hb] at hf, hspace,
    by rw [hasync, charged_free hfree, Nat.add_zero], fun b hb hf => by simp [hfree b hb] at hf⟩

/-- The charge of a nonzero async request. -/
theorem newBuf_charge {id : BufId} {dataSize offsetsSize extraBuffersSize size : Nat}
    (h : AsyncInv alloc) (hinv : Inv alloc') (hsame : SameSpace alloc alloc')
    (hnew : NewBuf alloc alloc' id dataSize offsetsSize extraBuffersSize true)
    (hreq : requestSize dataSize offsetsSize extraBuffersSize = .ok size)
    (hnz : ¬ (dataSize = 0 ∧ offsetsSize = 0 ∧ extraBuffersSize = 0)) :
    sizeofPtr ≤ size ∧ size + sizeofBinderBuffer ≤ alloc.freeAsyncSpace ∧
      alloc'.freeAsyncSpace = alloc.freeAsyncSpace - (size + sizeofBinderBuffer) := by
  obtain ⟨size', hreq', hadm, hasync⟩ := hnew.request
  rw [hreq] at hreq'
  cases hreq'
  obtain ⟨x, b, y, rest, hl, -, -, hl', -, -⟩ := hnew.list
  obtain ⟨hcont, hmod⟩ := requestSize_ok hreq
  have h8 : sizeofPtr ≤ size := by
    have : size ≠ 0 := fun h0 => hnz (requestSize_zero (h0 ▸ hreq))
    unfold sizeofPtr at *
    omega
  have hmax : max size sizeofPtr = size := Nat.max_eq_left h8
  -- the buffer lies in the space, so adding its header does not overflow
  have hmin : (b.taken dataSize offsetsSize extraBuffersSize true).minLen = size := by
    rw [← hmax, hcont]
    rfl
  have hfit := (hinv.tiles.mem_bounds (b := b.taken dataSize offsetsSize extraBuffersSize true)
    (by rw [hl']; simp))
  have hspace := h.space
  have hc := h.conserved
  have hsz : size ≤ sz4M := by
    have : alloc'.stop = alloc'.buffer + alloc.bufferSize := by
      rw [BinderAlloc.stop, hsame.2.1]
    omega
  have hadd : addSize size sizeofBinderBuffer = size + sizeofBinderBuffer :=
    addSize_eq (by unfold sizeofBinderBuffer sz4M at *; omega)
  have hle := hadm rfl
  rw [hadd] at hle
  refine ⟨h8, hle, ?_⟩
  rw [hasync, if_pos rfl, hmax, hadd]
  exact subSize_eq hle (by unfold sz4M at *; omega)

theorem AsyncInv.chargeOk (h : AsyncInv alloc) (hv : op.Valid alloc)
    (hnz : NonzeroAsync alloc op) : ChargeOk rb alloc op := by
  cases op with
  | freeBuf _ => trivial
  | vmaClose => trivial
  | newBuf env kzalloc dataSize offsetsSize extraBuffersSize isAsync =>
    cases isAsync with
    | false => trivial
    | true =>
      intro id alloc' size heq hreq
      have hspec : NewBufOk alloc dataSize offsetsSize extraBuffersSize true _ :=
        binderAllocNewBufLocked_spec rb env kzalloc h.toInv hv.1
      obtain ⟨r, alloc₁, heq₁, hinv, hsame, -, hnew⟩ := hspec
      rw [heq] at heq₁
      cases heq₁
      obtain ⟨h8, hle, -⟩ := newBuf_charge h hinv hsame (hnew id rfl) hreq (hnz rfl)
      rwa [Nat.max_eq_left h8]

/-- A call that takes a buffer, charged if it is async. -/
theorem AsyncInv.newBuf {id : BufId} {dataSize offsetsSize extraBuffersSize : Nat} {isAsync : Bool}
    (h : AsyncInv alloc) (hinv : Inv alloc') (hsame : SameSpace alloc alloc')
    (hnew : NewBuf alloc alloc' id dataSize offsetsSize extraBuffersSize isAsync)
    (hnz : isAsync = true → ¬ (dataSize = 0 ∧ offsetsSize = 0 ∧ extraBuffersSize = 0)) :
    AsyncInv alloc' := by
  obtain ⟨size, hreq, -, hasync⟩ := hnew.request
  have hidle := h.idle.newBuf h.toInv hnew
  obtain ⟨x, b, y, rest, hl, -, hf, hl', hrest, -⟩ := hnew.list
  have hcont : (b.taken dataSize offsetsSize extraBuffersSize isAsync).contentSize = size :=
    (requestSize_ok hreq).1.symm
  have hold : charged alloc.buffers = charged x + charged y := by
    rw [hl, charged_append, charged_cons, if_neg (by simp [hf]), Nat.zero_add]
  have hnow : charged alloc'.buffers = charged x +
      ((if isAsync = true then max size sizeofPtr + sizeofBinderBuffer else 0) + charged y) := by
    rw [hl', charged_append, charged_cons, charged_append, charged_free hrest, Nat.zero_add]
    simp only [BinderBuffer.taken, BinderBuffer.charge, true_and] at hcont ⊢
    rw [hcont]
  have hc := h.conserved
  cases isAsync with
  | false =>
    refine ⟨hinv, hidle, hsame.2.1 ▸ h.space, ?_, fun c hcm hcf hca => ?_⟩
    · rw [hnow, hasync, hsame.2.1]
      simp only [Bool.false_eq_true, if_false]
      omega
    · rw [hl'] at hcm
      simp only [List.mem_append, List.mem_cons] at hcm
      rcases hcm with hcm | rfl | hcm | hcm
      · exact h.nonzero c (by rw [hl]; simp [hcm]) hcf hca
      · cases hca
      · simp [hrest c hcm] at hcf
      · exact h.nonzero c (by rw [hl]; simp [hcm]) hcf hca
  | true =>
    obtain ⟨h8, hle, hfree⟩ := newBuf_charge h hinv hsame hnew hreq (hnz rfl)
    refine ⟨hinv, hidle, hsame.2.1 ▸ h.space, ?_, fun c hcm hcf hca => ?_⟩
    · rw [hnow, hfree, hsame.2.1, if_pos rfl, Nat.max_eq_left h8]
      omega
    · rw [hl'] at hcm
      simp only [List.mem_append, List.mem_cons] at hcm
      rcases hcm with hcm | rfl | hcm | hcm
      · exact h.nonzero c (by rw [hl]; simp [hcm]) hcf hca
      · rw [hcont]
        exact h8
      · simp [hrest c hcm] at hcf
      · exact h.nonzero c (by rw [hl]; simp [hcm]) hcf hca

/-- A free gives back what was charged. -/
theorem AsyncInv.freeBuf (h : AsyncInv alloc) {id : BufId}
    (hv : ∃ b ∈ alloc.buffers, b.id = id ∧ b.free = false)
    (heq : binderFreeBufLocked rb alloc id = some alloc') : AsyncInv alloc' := by
  obtain ⟨b, hb, rfl, hf⟩ := hv
  obtain ⟨x, y, hl⟩ := List.append_of_mem hb
  obtain ⟨alloc₁, heq₁, hinv, hsame, hasync, hfilter, -⟩ := binderFreeBufLocked_spec rb h.toInv hl hf
    (h.idle b hb hf)
  rw [heq] at heq₁
  cases heq₁
  have hsub : ∀ c ∈ x ++ y, c ∈ alloc.buffers := fun c hc => by
    rw [hl]
    simp only [List.mem_append, List.mem_cons] at hc ⊢
    tauto
  have hc := h.conserved
  have hspace := h.space
  have hnow : charged alloc'.buffers = charged x + charged y := by
    rw [← charged_append, charged, charged, asyncBuffers, asyncBuffers, hfilter]
  rw [hl, charged_append, charged_cons] at hc
  refine ⟨hinv, h.idle.of_filter hsub hfilter, hsame.2.1 ▸ h.space, ?_, fun c hcm hcf hca => ?_⟩
  · rw [hnow, hasync, hsame.2.1, freedAsyncSpace]
    by_cases ha : b.asyncTransaction = true
    · have h8 := h.nonzero b hb hf ha
      have hcharge : b.charge = b.contentSize + sizeofBinderBuffer := by
        rw [BinderBuffer.charge, Nat.max_eq_left h8]
      rw [if_pos ⟨hf, ha⟩, hcharge] at hc
      unfold sz4M at hspace
      have hadd : addSize b.contentSize sizeofBinderBuffer = b.contentSize + sizeofBinderBuffer :=
        addSize_eq (by omega)
      rw [if_pos ha, hadd, addSize_eq (by omega)]
      omega
    · rw [if_neg (by simp [ha])] at hc
      rw [if_neg ha]
      omega
  · have hcin : c ∈ alloc'.buffers.filter (!·.free) := List.mem_filter.mpr ⟨hcm, by simp [hcf]⟩
    rw [hfilter] at hcin
    exact h.nonzero c (hsub c (List.mem_filter.mp hcin).1) hcf hca

theorem AsyncInv.step (h : AsyncInv alloc) (hnz : NonzeroAsync alloc op)
    (hst : (allocSys rb).step alloc op alloc') : AsyncInv alloc' := by
  obtain ⟨hv, r, heq⟩ := hst
  cases op with
  | newBuf env kzalloc dataSize offsetsSize extraBuffersSize isAsync =>
    have hspec : NewBufOk alloc dataSize offsetsSize extraBuffersSize isAsync _ :=
      binderAllocNewBufLocked_spec rb env kzalloc h.toInv hv.1
    obtain ⟨r₁, alloc₁, heq₁, hinv, hsame, herr, hnew⟩ := hspec
    simp only [BinderAlloc.exec, heq₁, Option.bind_eq_bind, Option.bind_some] at heq
    cases r₁ with
    | error e =>
      cases heq
      rw [herr e rfl]
      exact ⟨h.toInv.pages _, h.idle, h.space, h.conserved, h.nonzero⟩
    | ok id =>
      cases heq
      exact h.newBuf hinv hsame (hnew id rfl) hnz
  | freeBuf id =>
    simp only [BinderAlloc.exec, Option.bind_eq_bind] at heq
    obtain ⟨alloc₁, heq₁, he⟩ := Option.bind_eq_some_iff.mp heq
    cases he
    exact h.freeBuf hv heq₁
  | vmaClose =>
    cases heq
    exact ⟨⟨⟨h.tiles, h.aligned, h.ids, h.txn, h.bound, h.stopAligned⟩, h.freeTree, h.allocTree,
      h.noAdj, h.nonempty⟩, h.idle, h.space, h.conserved, h.nonzero⟩

/-- **The space for async buffers is conserved**, in every run without an async request of size 0,
and the charge of the next such request does not underflow. -/
theorem allocSys_async (h : (allocSys rb).ReachIf NonzeroAsync alloc) :
    AsyncOk alloc ∧ ∀ op : AllocOp, op.Valid alloc → NonzeroAsync alloc op →
      ChargeOk rb alloc op := by
  have hinv : AsyncInv alloc := by
    refine h.inv ?_ fun _ _ _ hi hnz hst => hi.step hnz hst
    rintro alloc ⟨vma, id, hv, heq⟩
    exact AsyncInv.init hv heq
  exact ⟨hinv.asyncOk, fun op hv hnz => hinv.chargeOk hv hnz⟩

/-- An async buffer beside one that is not. -/
def asyncInUse : BinderAlloc :=
  (twoPagesAlloc.execIf (.unbalanced BufId) NonzeroAsync
    [.newBuf plenty (some 2) 1000 8 0 true, .newBuf plenty (some 3) 500 0 0 false]).get (by decide)

/-- The async buffer is freed. -/
def asyncFreed : BinderAlloc :=
  (asyncInUse.execIf (.unbalanced BufId) NonzeroAsync [.freeBuf 1]).get (by decide)

theorem allocSys_async_freed : (asyncBuffers asyncInUse.buffers).map (·.id) = [1] ∧
    asyncInUse.freeAsyncSpace < asyncInUse.bufferSize / 2 ∧ AsyncOk asyncInUse ∧
    asyncFreed.freeAsyncSpace = asyncFreed.bufferSize / 2 := by
  have hused : (allocSys (.unbalanced BufId)).ReachIf NonzeroAsync asyncInUse :=
    reachIf_execIf twoPagesAlloc_reach (Option.some_get _).symm
  have hfreed : (allocSys (.unbalanced BufId)).ReachIf NonzeroAsync asyncFreed :=
    reachIf_execIf hused (Option.some_get _).symm
  exact ⟨rfl, by decide, (allocSys_async hused).1, (allocSys_async hfreed).1.back rfl⟩

/-- An async request of size 0 is charged 8 bytes more than it gets back. -/
theorem async_leak : ¬ ∀ (rb : RbOps BufId) alloc, (allocSys rb).Reach alloc → AsyncOk alloc := by
  intro hall
  have h0 : (allocSys (.unbalanced BufId)).Reach _ :=
    .init ⟨twoPages, 1, twoPages_wellFormed, rfl⟩
  have h1 := h0.next (a := AllocOp.newBuf plenty (some 2) 0 0 0 true)
    ⟨⟨by decide, by decide, by decide, by decide⟩, none, rfl⟩
  have h2 := h1.next (a := AllocOp.freeBuf 1) ⟨⟨_, List.mem_cons_self, rfl, rfl⟩, none, rfl⟩
  have hc := (hall _ _ h2).back rfl
  exact absurd hc (by decide)

end Redroid.Binder
