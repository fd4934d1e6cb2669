import Redroid.Lib.Sys
import Redroid.Binder.Alloc

/-!
# The representation invariant of the allocator

* `RepOk`: the buffers tile the address space in order, each at an aligned address and at least
  `sizeof(void *)` long, the two trees divide them by their `free` flag, and no two neighbours are
  both free.
* `Inv`: `RepOk` and what carries it over one call.
* One spec for each function: `binderAllocNewBufLocked_spec`, `binderFreeBufLocked_spec`.
-/

namespace Redroid.Binder

/-- The size of a buffer's contents, as `binder_free_buf_locked` computes it. -/
def BinderBuffer.contentSize (b : BinderBuffer) : Nat :=
  addSize (addSize (alignPtr b.dataSize) (alignPtr b.offsetsSize)) (alignPtr b.extraBuffersSize)

/-- The space that a buffer needs: an allocated one holds its contents, and none is empty. -/
def BinderBuffer.minLen (b : BinderBuffer) : Nat :=
  if b.free then sizeofPtr else max b.contentSize sizeofPtr

theorem BinderBuffer.ptr_le_minLen (b : BinderBuffer) : sizeofPtr ≤ b.minLen := by
  unfold minLen
  split <;> omega

/-- The ids of the buffers whose `free` flag is `f`. -/
def idsOf (f : Bool) (l : List BinderBuffer) : List BufId := (l.filter (·.free == f)).map (·.id)

section Ids

variable {f : Bool} {l l₁ l₂ : List BinderBuffer} {b : BinderBuffer}

@[simp] theorem idsOf_nil : idsOf f [] = [] := rfl

@[simp] theorem idsOf_append : idsOf f (l₁ ++ l₂) = idsOf f l₁ ++ idsOf f l₂ := by
  simp [idsOf]

theorem idsOf_cons_eq (h : b.free = f) : idsOf f (b :: l) = b.id :: idsOf f l := by
  simp [idsOf, h]

theorem idsOf_cons_ne (h : b.free ≠ f) : idsOf f (b :: l) = idsOf f l := by
  simp [idsOf, h]

theorem mem_idsOf {id : BufId} : id ∈ idsOf f l ↔ ∃ b ∈ l, b.free = f ∧ b.id = id := by
  simp [idsOf, and_assoc]

end Ids

/-- What the list alone satisfies. -/
structure Core (alloc : BinderAlloc) : Prop where
  tiles : Tiles BinderBuffer.minLen BinderBuffer.userData alloc.buffer alloc.stop alloc.buffers
  aligned : ∀ b ∈ alloc.buffers, b.userData % sizeofPtr = 0
  ids : (alloc.buffers.map (·.id)).Nodup
  txn : ∀ b ∈ alloc.buffers, b.free = true → b.transaction = none
  bound : alloc.stop < 2 ^ 64
  stopAligned : alloc.stop % sizeofPtr = 0

/-- No two neighbours are both free. -/
def NoAdjacentFree (l : List BinderBuffer) : Prop :=
  l.IsChain fun a b => ¬ (a.free = true ∧ b.free = true)

/-- The invariant of the allocator. -/
structure Inv (alloc : BinderAlloc) : Prop extends Core alloc where
  freeTree : alloc.freeBuffers.toList.Perm (idsOf true alloc.buffers)
  allocTree : alloc.allocatedBuffers.toList.Perm (idsOf false alloc.buffers)
  noAdj : NoAdjacentFree alloc.buffers
  nonempty : alloc.buffers ≠ []

/-! ## Following pointers -/

section Locate

variable {id : BufId} {l x y : List BinderBuffer} {b : BinderBuffer}

theorem locate_some (h : locate id l = some (x, b, y)) : l = x ++ b :: y ∧ b.id = id := by
  induction l generalizing x with
  | nil => cases h
  | cons a rest ih =>
    simp only [locate] at h
    split at h
    · cases h
      exact ⟨rfl, by assumption⟩
    · obtain ⟨⟨x', b', y'⟩, hr, he⟩ := Option.map_eq_some_iff.mp h
      cases he
      obtain ⟨rfl, hid⟩ := ih hr
      exact ⟨rfl, hid⟩

theorem locate_split (h : ((x ++ b :: y).map (·.id)).Nodup) :
    locate b.id (x ++ b :: y) = some (x, b, y) := by
  induction x with
  | nil => simp [locate]
  | cons a rest ih =>
    rw [List.cons_append, List.map_cons, List.nodup_cons] at h
    have hne : a.id ≠ b.id := fun he => h.1 (by simp [he])
    simp [locate, hne, ih h.2]

theorem locate_mem (h : (l.map (·.id)).Nodup) (hb : b ∈ l) :
    ∃ x y, l = x ++ b :: y ∧ locate b.id l = some (x, b, y) := by
  obtain ⟨x, y, rfl⟩ := List.append_of_mem hb
  exact ⟨x, y, rfl, locate_split h⟩

end Locate

/-! ## Sizes -/

theorem subSize_eq {x y : Nat} (h : y ≤ x) (hx : x < 2 ^ 64) : subSize x y = x - y := by
  unfold subSize
  omega

theorem addSize_eq {x y : Nat} (h : x + y < 2 ^ 64) : addSize x y = x + y :=
  Nat.mod_eq_of_lt h

theorem alignPtr_mod (x : Nat) : alignPtr x % sizeofPtr = 0 := Nat.mul_mod_left _ _

theorem addSize_mod {x y : Nat} (hx : x % sizeofPtr = 0) (hy : y % sizeofPtr = 0) :
    addSize x y % sizeofPtr = 0 := by
  unfold addSize sizeofPtr at *
  omega

variable {rb : RbOps BufId} {alloc : BinderAlloc} {x y : List BinderBuffer} {b : BinderBuffer}

/-- The size of a buffer is its space up to the next one. -/
theorem Core.size (h : Core alloc) (hl : alloc.buffers = x ++ b :: y) :
    alloc.sizeBefore b y = endOf BinderBuffer.userData alloc.stop y - b.userData ∧
      b.userData + b.minLen ≤ endOf BinderBuffer.userData alloc.stop y ∧
      endOf BinderBuffer.userData alloc.stop y ≤ alloc.stop ∧
      endOf BinderBuffer.userData alloc.stop y % sizeofPtr = 0 := by
  have ht := h.tiles
  rw [hl] at ht
  obtain ⟨h1, h2⟩ := ht.le_endOf
  have := h.bound
  refine ⟨subSize_eq (by omega) (by omega), h1, h2, ?_⟩
  cases y with
  | nil => exact h.stopAligned
  | cons c rest => exact h.aligned c (by rw [hl]; simp)

theorem Core.bufferSize (h : Core alloc) (hl : alloc.buffers = x ++ b :: y) :
    alloc.binderAllocBufferSize b.id = some (alloc.sizeBefore b y) := by
  have hid := h.ids
  rw [hl] at hid
  simp [BinderAlloc.binderAllocBufferSize, hl, locate_split hid]

/-! ## The trees -/

/-- Every id of the tree points to a buffer with the flag `f`. -/
def TreeIn (f : Bool) (alloc : BinderAlloc) (t : RbTree BufId) : Prop :=
  ∀ id ∈ t.toList, ∃ b ∈ alloc.buffers, b.id = id ∧ b.free = f

theorem TreeIn.of_perm {f : Bool} {t : RbTree BufId} (h : t.toList.Perm (idsOf f alloc.buffers)) :
    TreeIn f alloc t := fun id hid => by
  obtain ⟨b, hb, hf, he⟩ := mem_idsOf.mp (h.subset hid)
  exact ⟨b, hb, he, hf⟩

/-- `binder_insert_free_buffer` adds the buffer to the free tree. -/
theorem binderInsertFreeBuffer_spec (rb : RbOps BufId) (h : Core alloc)
    (ht : TreeIn true alloc alloc.freeBuffers)
    (hb : b ∈ alloc.buffers) (hf : b.free = true) :
    ∃ t, binderInsertFreeBuffer rb alloc b.id = some { alloc with freeBuffers := t } ∧
      t.toList.Perm (b.id :: alloc.freeBuffers.toList) := by
  obtain ⟨x, y, hl, hloc⟩ := locate_mem h.ids hb
  have hvisit : ∀ id ∈ alloc.freeBuffers.toList, (bySize alloc (alloc.sizeBefore b y) id).isSome := by
    intro id hid
    obtain ⟨c, hc, rfl, hcf⟩ := ht id hid
    obtain ⟨x', y', hl', hloc'⟩ := locate_mem h.ids hc
    simp [bySize, hloc', hcf, h.bufferSize hl']
  obtain ⟨t, hins⟩ := RbTree.insertBy_isSome (x := b.id) hvisit
  refine ⟨rb.insertColor t b.id, ?_, rb.perm_insert hins⟩
  simp [binderInsertFreeBuffer, hloc, hf, h.bufferSize hl, hins]

/-- The addresses are strictly increasing. -/
theorem Core.sorted (h : Core alloc) :
    alloc.buffers.Pairwise fun a b => a.userData < b.userData :=
  h.tiles.sorted fun b => Nat.lt_of_lt_of_le (by decide) b.ptr_le_minLen

/-- Two buffers at one address are the same buffer. -/
theorem eq_of_userData {l : List BinderBuffer} {c : BinderBuffer}
    (h : l.Pairwise fun a b => a.userData < b.userData) (hb : b ∈ l) (hc : c ∈ l)
    (he : b.userData = c.userData) : b = c := by
  have hn : (l.map (·.userData)).Nodup := by
    rw [List.Nodup, List.pairwise_map]
    exact h.imp Nat.ne_of_lt
  exact List.inj_on_of_nodup_map hn hb hc he

/-- `binder_insert_allocated_buffer_locked` adds the buffer to the other tree. -/
theorem binderInsertAllocatedBufferLocked_spec (rb : RbOps BufId) {alloc : BinderAlloc}
    (hids : (alloc.buffers.map (·.id)).Nodup)
    (hsort : alloc.buffers.Pairwise fun a b => a.userData < b.userData)
    (ht : TreeIn false alloc alloc.allocatedBuffers) (hb : b ∈ alloc.buffers)
    (hf : b.free = false) (hnot : b.id ∉ alloc.allocatedBuffers.toList) :
    ∃ t, binderInsertAllocatedBufferLocked rb alloc b.id =
        some { alloc with allocatedBuffers := t } ∧
      t.toList.Perm (b.id :: alloc.allocatedBuffers.toList) := by
  obtain ⟨x, y, hl, hloc⟩ := locate_mem hids hb
  have hvisit : ∀ id ∈ alloc.allocatedBuffers.toList, (byAddress alloc b.userData id).isSome := by
    intro id hid
    obtain ⟨c, hc, rfl, hcf⟩ := ht id hid
    obtain ⟨x', y', hl', hloc'⟩ := locate_mem hids hc
    have hne : b.userData ≠ c.userData := fun he =>
      hnot (eq_of_userData hsort hb hc he ▸ hid)
    rcases Nat.lt_or_gt_of_ne hne with hlt | hgt
    · simp [byAddress, hloc', hcf, hlt]
    · simp [byAddress, hloc', hcf, hgt, Nat.not_lt_of_gt hgt]
  obtain ⟨t, hins⟩ := RbTree.insertBy_isSome (x := b.id) hvisit
  refine ⟨rb.insertColor t b.id, ?_, rb.perm_insert hins⟩
  simp [binderInsertAllocatedBufferLocked, hloc, hf, hins]

/-- `rb_erase` of one of the ids. -/
theorem perm_erase {t : RbTree BufId} {l₁ l₂ : List BufId} {id : BufId}
    (h : t.toList.Perm (l₁ ++ id :: l₂)) : (rb.erase t id).toList.Perm (l₁ ++ l₂) := by
  rw [rb.toList_erase]
  have := (h.trans List.perm_middle).erase id
  rwa [List.erase_cons_head] at this

/-- Neither LRU function does anything, so giving pages back changes none. -/
theorem freeRange_eq {buffer start stop : Nat} {pages : Pages} :
    freeRange buffer start stop pages = pages := by
  unfold freeRange
  induction pageAddrs start stop with
  | nil => rfl
  | cons addr rest ih =>
    rw [List.foldr_cons, ih]
    simp [Pages.set, compatListLruAdd]

theorem binderFreePageRange_eq {start stop : Nat} : binderFreePageRange alloc start stop = alloc.pages := by
  unfold binderFreePageRange
  rw [freeRange_eq, ite_self]

/-- The allocated buffers with their ends. -/
def usedSpans (stop : Nat) (l : List BinderBuffer) : List (BinderBuffer × Nat) :=
  (spans BinderBuffer.userData stop l).filter (!·.1.free)

theorem usedSpans_append {stop : Nat} : usedSpans stop (x ++ y) =
    usedSpans (endOf BinderBuffer.userData stop y) x ++ usedSpans stop y := by
  rw [usedSpans, spans_append, List.filter_append]
  rfl

theorem usedSpans_free {stop : Nat} (hf : b.free = true) : usedSpans stop (b :: y) = usedSpans stop y := by
  simp [usedSpans, hf]

theorem usedSpans_used {stop : Nat} (hf : b.free = false) : usedSpans stop (b :: y) =
    (b, endOf BinderBuffer.userData stop y) :: usedSpans stop y := by
  simp [usedSpans, hf]

/-- A free buffer behind a free one is nobody's neighbour. -/
theorem usedSpans_delete {stop : Nat} {a c : BinderBuffer} (ha : a.free = true) (hc : c.free = true) :
    usedSpans stop (x ++ a :: c :: y) = usedSpans stop (x ++ a :: y) := by
  rw [usedSpans_append, usedSpans_append, usedSpans_free ha, usedSpans_free hc, usedSpans_free ha]
  rfl

/-! ## Allocation -/

/-- The buffer that `binder_alloc_new_buf_locked` hands out. -/
def BinderBuffer.taken (b : BinderBuffer) (dataSize offsetsSize extraBuffersSize : Nat)
    (isAsync : Bool) : BinderBuffer :=
  { b with
    free := false, allowUserFree := false, dataSize, offsetsSize, extraBuffersSize
    asyncTransaction := isAsync }

section Take

variable {dataSize offsetsSize extraBuffersSize : Nat} {isAsync : Bool}

/-- A list with one buffer replaced by one with the same id and address. -/
theorem Core.replace {b' : BinderBuffer} (h : Core alloc) (hl : alloc.buffers = x ++ b :: y)
    (hid : b'.id = b.id) (hu : b'.userData = b.userData)
    (htx : b'.free = true → b'.transaction = none)
    (hfit : b.userData + b'.minLen ≤ endOf BinderBuffer.userData alloc.stop y)
    {alloc' : BinderAlloc} (hl' : alloc'.buffers = x ++ b' :: y)
    (hb : alloc'.buffer = alloc.buffer) (hs : alloc'.bufferSize = alloc.bufferSize) :
    Core alloc' := by
  have hstop : alloc'.stop = alloc.stop := by simp only [BinderAlloc.stop, hb, hs]
  have hmem : ∀ c ∈ x ++ b' :: y, c = b' ∨ c ∈ alloc.buffers := fun c hc => by
    rw [hl]
    simp only [List.mem_append, List.mem_cons] at hc ⊢
    tauto
  have hbm : b ∈ alloc.buffers := by rw [hl]; simp
  have ht := h.tiles
  have hi := h.ids
  rw [hl] at ht hi
  refine ⟨?_, ?_, ?_, ?_, hstop ▸ h.bound, hstop ▸ h.stopAligned⟩
  · rw [hl', hb, hstop]
    exact ht.replace hu hfit
  · intro c hc
    rcases hmem c (hl' ▸ hc) with rfl | hc
    · rw [hu]
      exact h.aligned b hbm
    · exact h.aligned c hc
  · rw [hl']
    simpa [hid] using hi
  · intro c hc
    rcases hmem c (hl' ▸ hc) with rfl | hc
    · exact htx
    · exact h.txn c hc

theorem takeBuffer_spec (rb : RbOps BufId) (size : Nat) (h : Core alloc)
    (hl : alloc.buffers = x ++ b :: y) (hf : b.free = true)
    (hft : alloc.freeBuffers.toList.Perm (idsOf true alloc.buffers))
    (hat : alloc.allocatedBuffers.toList.Perm (idsOf false alloc.buffers))
    (hfit : b.userData + (b.taken dataSize offsetsSize extraBuffersSize isAsync).minLen ≤
      endOf BinderBuffer.userData alloc.stop y) :
    ∃ alloc', takeBuffer rb alloc b.id size dataSize offsetsSize extraBuffersSize isAsync =
        some alloc' ∧ Core alloc' ∧
      alloc'.buffers = x ++ b.taken dataSize offsetsSize extraBuffersSize isAsync :: y ∧
      alloc'.freeBuffers.toList.Perm (idsOf true alloc'.buffers) ∧
      alloc'.allocatedBuffers.toList.Perm (idsOf false alloc'.buffers) ∧
      alloc'.freeAsyncSpace = (if isAsync then
        subSize alloc.freeAsyncSpace (addSize size sizeofBinderBuffer) else alloc.freeAsyncSpace) ∧
      alloc'.buffer = alloc.buffer ∧ alloc'.bufferSize = alloc.bufferSize ∧
      alloc'.vma = alloc.vma := by
  have hi := h.ids
  have hs := h.sorted
  rw [hl] at hi hs
  rw [hl, idsOf_append, idsOf_cons_eq hf] at hft
  rw [hl, idsOf_append, idsOf_cons_ne (by simp [hf])] at hat
  have hloc : locate b.id alloc.buffers = some (x, b, y) := by rw [hl]; exact locate_split hi
  -- the struct with its flags set, still with its old sizes
  let b₁ : BinderBuffer := { b with free := false, allowUserFree := false }
  let alloc₁ : BinderAlloc := { alloc with
    freeBuffers := rb.erase alloc.freeBuffers b.id, buffers := x ++ b₁ :: y }
  have hi₁ : ((x ++ b₁ :: y).map (·.id)).Nodup := by simpa [b₁] using hi
  have hs₁ : (x ++ b₁ :: y).Pairwise fun a b => a.userData < b.userData := by
    simpa [List.pairwise_append, b₁] using hs
  have ht₁ : TreeIn false alloc₁ alloc₁.allocatedBuffers := fun id hid => by
    obtain ⟨c, hc, hcf, rfl⟩ := mem_idsOf.mp (idsOf_append ▸ hat.subset hid)
    exact ⟨c, by simp only [alloc₁, List.mem_append, List.mem_cons] at hc ⊢; tauto, rfl, hcf⟩
  have hnot : b₁.id ∉ alloc₁.allocatedBuffers.toList := fun hin => by
    obtain ⟨c, hc, -, he⟩ := mem_idsOf.mp (idsOf_append ▸ hat.subset hin)
    rw [List.map_append, List.map_cons, List.nodup_middle, ← List.map_append] at hi
    exact (List.nodup_cons.mp hi).1 (he ▸ List.mem_map_of_mem hc)
  obtain ⟨t, hins, hperm⟩ := binderInsertAllocatedBufferLocked_spec rb hi₁ hs₁ ht₁
    (show b₁ ∈ x ++ b₁ :: y by simp) rfl hnot
  have hloc₁ : locate b.id (x ++ b₁ :: y) = some (x, b₁, y) := locate_split hi₁
  let alloc' : BinderAlloc := { alloc with
    freeBuffers := rb.erase alloc.freeBuffers b.id
    allocatedBuffers := t
    buffers := x ++ b.taken dataSize offsetsSize extraBuffersSize isAsync :: y
    freeAsyncSpace := if isAsync then
      subSize alloc.freeAsyncSpace (addSize size sizeofBinderBuffer) else alloc.freeAsyncSpace }
  have hcore : Core alloc' := h.replace hl
    (show (b.taken dataSize offsetsSize extraBuffersSize isAsync).id = b.id from rfl)
    rfl (by simp [BinderBuffer.taken]) hfit rfl rfl rfl
  refine ⟨alloc', ?_, hcore, rfl, ?_, ?_, rfl, rfl, rfl, rfl⟩
  · simp only [takeBuffer, hloc, Option.bind_eq_bind, Option.bind_some]
    rw [show binderInsertAllocatedBufferLocked rb { alloc with
      freeBuffers := rb.erase alloc.freeBuffers b.id, buffers := x ++ b₁ :: y } b.id = _ from hins]
    simp only [Option.bind_some, alloc₁, hloc₁]
    rfl
  · rw [idsOf_append, idsOf_cons_ne (by simp [BinderBuffer.taken])]
    exact perm_erase hft
  · rw [idsOf_append, idsOf_cons_eq (by rfl)]
    exact (hperm.trans (hat.cons _)).trans List.perm_middle.symm

/-- The rest of a free buffer becomes a free buffer of its own, for the moment in the free tree
together with the buffer that it comes from. -/
theorem splitBuffer_spec (rb : RbOps BufId) {new : BufId} {size : Nat} (h : Core alloc)
    (hl : alloc.buffers = x ++ b :: y) (hf : b.free = true)
    (hft : alloc.freeBuffers.toList.Perm (idsOf true alloc.buffers))
    (hnew : new ∉ alloc.buffers.map (·.id)) (h8 : sizeofPtr ≤ size) (hmod : size % sizeofPtr = 0)
    (hsize : size < alloc.sizeBefore b y) :
    ∃ alloc', splitBuffer rb alloc b.id new size = some alloc' ∧ Core alloc' ∧
      alloc'.buffers = x ++ b :: .zeroed new (b.userData + size) :: y ∧
      alloc'.freeBuffers.toList.Perm (idsOf true alloc'.buffers) ∧
      alloc'.allocatedBuffers = alloc.allocatedBuffers ∧
      alloc'.freeAsyncSpace = alloc.freeAsyncSpace ∧ alloc'.buffer = alloc.buffer ∧
      alloc'.bufferSize = alloc.bufferSize ∧ alloc'.vma = alloc.vma := by
  obtain ⟨hs, -, hle, hend⟩ := h.size hl
  have hbound := h.bound
  have hbm : b ∈ alloc.buffers := by rw [hl]; simp
  have hba := h.aligned b hbm
  have hi := h.ids
  have ht := h.tiles
  rw [hl] at hi ht
  have hadd : addSize b.userData size = b.userData + size := addSize_eq (by omega)
  let c : BinderBuffer := .zeroed new (b.userData + size)
  let alloc₁ : BinderAlloc := { alloc with buffers := x ++ b :: c :: y }
  have hmem : ∀ d ∈ x ++ b :: c :: y, d = c ∨ d ∈ alloc.buffers := fun d hd => by
    rw [hl]
    simp only [List.mem_append, List.mem_cons] at hd ⊢
    tauto
  have hcore : Core alloc₁ := by
    refine ⟨ht.split rfl ?_ ?_, ?_, ?_, ?_, hbound, h.stopAligned⟩
    · simp only [BinderBuffer.minLen, hf, if_true, c, BinderBuffer.zeroed]
      omega
    · simp only [BinderBuffer.minLen, if_true, c, BinderBuffer.zeroed]
      unfold sizeofPtr at *
      omega
    · intro d hd
      rcases hmem d hd with rfl | hd
      · simp only [c, BinderBuffer.zeroed]
        unfold sizeofPtr at *
        omega
      · exact h.aligned d hd
    · have hperm : (x ++ b :: c :: y).Perm (c :: (x ++ b :: y)) := by
        rw [show x ++ b :: c :: y = (x ++ [b]) ++ c :: y by simp,
          show x ++ b :: y = (x ++ [b]) ++ y by simp]
        exact List.perm_middle
      rw [(hperm.map _).nodup_iff, List.map_cons, ← hl]
      exact List.nodup_cons.mpr ⟨hnew, h.ids⟩
    · intro d hd
      rcases hmem d hd with rfl | hd
      · exact fun _ => rfl
      · exact h.txn d hd
  have htree : TreeIn true alloc₁ alloc₁.freeBuffers := fun id hid => by
    obtain ⟨d, hd, hdf, he⟩ := mem_idsOf.mp (hft.subset hid)
    rw [hl] at hd
    exact ⟨d, by simp only [alloc₁, List.mem_append, List.mem_cons] at hd ⊢; tauto, he, hdf⟩
  obtain ⟨t, hins, hperm⟩ := binderInsertFreeBuffer_spec rb hcore htree
    (show c ∈ x ++ b :: c :: y by simp) rfl
  refine ⟨{ alloc₁ with freeBuffers := t }, ?_, ?_, rfl, ?_, rfl, rfl, rfl, rfl, rfl⟩
  · have hloc : locate b.id alloc.buffers = some (x, b, y) := by rw [hl]; exact locate_split hi
    simp only [splitBuffer, hloc, hadd, Option.bind_eq_bind, Option.bind_some]
    exact hins
  · exact ⟨hcore.tiles, hcore.aligned, hcore.ids, hcore.txn, hcore.bound, hcore.stopAligned⟩
  · rw [hl, idsOf_append, idsOf_cons_eq hf] at hft
    simp only [alloc₁, idsOf_append, idsOf_cons_eq hf, idsOf_cons_eq (show c.free = true from rfl)]
    refine (hperm.trans (hft.cons _)).trans ?_
    rw [show idsOf true x ++ b.id :: c.id :: idsOf true y =
      (idsOf true x ++ [b.id]) ++ c.id :: idsOf true y by simp,
      show idsOf true x ++ b.id :: idsOf true y = (idsOf true x ++ [b.id]) ++ idsOf true y by simp]
    exact List.perm_middle.symm

/-- What the search returns: a free buffer that is large enough. -/
def Fits (alloc : BinderAlloc) (size : Nat) (id : BufId) : Prop :=
  ∃ x b y, alloc.buffers = x ++ b :: y ∧ b.id = id ∧ b.free = true ∧ size ≤ alloc.sizeBefore b y

theorem bestFit_spec (size : Nat) (best : Option BufId) (h : Core alloc) {t : RbTree BufId}
    (ht : TreeIn true alloc t) (hbest : ∀ id ∈ best, Fits alloc size id) :
    ∃ r, bestFit alloc size t best = some r ∧ ∀ id ∈ r, Fits alloc size id := by
  induction t generalizing best with
  | leaf => exact ⟨best, rfl, hbest⟩
  | node c left id right ihl ihr =>
    obtain ⟨b, hb, rfl, hf⟩ := ht id (by simp)
    obtain ⟨x, y, hl, hloc⟩ := locate_mem h.ids hb
    have hsz := h.bufferSize hl
    have hl' : TreeIn true alloc left := fun z hz => ht z (by simp [hz])
    have hr' : TreeIn true alloc right := fun z hz => ht z (by simp [hz])
    simp only [bestFit, hloc, hf, hsz, Option.bind_eq_bind, Option.bind_some, guard_true]
    rcases Nat.lt_trichotomy size (alloc.sizeBefore b y) with hlt | heq | hgt
    · rw [if_pos hlt]
      refine ihl _ hl' fun id hid => ?_
      cases hid
      exact ⟨x, b, y, hl, rfl, hf, Nat.le_of_lt hlt⟩
    · rw [if_neg (by omega), if_neg (by omega)]
      refine ⟨_, rfl, fun id hid => ?_⟩
      cases hid
      exact ⟨x, b, y, hl, rfl, hf, Nat.le_of_eq heq⟩
    · rw [if_neg (by omega), if_pos hgt]
      exact ihr _ hr' hbest

theorem requestSize_ok {size : Nat} (h : requestSize dataSize offsetsSize extraBuffersSize = .ok size) :
    size = addSize (addSize (alignPtr dataSize) (alignPtr offsetsSize)) (alignPtr extraBuffersSize) ∧
      size % sizeofPtr = 0 := by
  simp only [requestSize] at h
  split at h
  · cases h
  split at h
  · cases h
  cases h
  exact ⟨rfl, addSize_mod (addSize_mod (alignPtr_mod _) (alignPtr_mod _)) (alignPtr_mod _)⟩

end Take

/-- The address space stays. -/
def SameSpace (alloc alloc' : BinderAlloc) : Prop :=
  alloc'.buffer = alloc.buffer ∧ alloc'.bufferSize = alloc.bufferSize ∧ alloc'.vma = alloc.vma

/-- What a successful `binder_alloc_new_buf_locked` does: the free buffer `id` is taken, its rest,
if there is one, is free, and an async request is charged. -/
structure NewBuf (alloc alloc' : BinderAlloc) (id : BufId)
    (dataSize offsetsSize extraBuffersSize : Nat) (isAsync : Bool) : Prop where
  request : ∃ size, requestSize dataSize offsetsSize extraBuffersSize = .ok size ∧
    (isAsync = true → addSize size sizeofBinderBuffer ≤ alloc.freeAsyncSpace) ∧
    alloc'.freeAsyncSpace = if isAsync then
      subSize alloc.freeAsyncSpace (addSize (max size sizeofPtr) sizeofBinderBuffer)
      else alloc.freeAsyncSpace
  list : ∃ x b y rest, alloc.buffers = x ++ b :: y ∧ b.id = id ∧ b.free = true ∧
    alloc'.buffers = x ++ b.taken dataSize offsetsSize extraBuffersSize isAsync :: (rest ++ y) ∧
    (∀ c ∈ rest, c.free = true) ∧
    ∀ size, requestSize dataSize offsetsSize extraBuffersSize = .ok size →
      endOf BinderBuffer.userData alloc.stop (rest ++ y) = b.userData + max size sizeofPtr

section NewBuf

variable {dataSize offsetsSize extraBuffersSize size : Nat} {isAsync : Bool}

/-- A buffer that is not free keeps `NoAdjacentFree`. -/
theorem NoAdjacentFree.taken {b' : BinderBuffer} (h : NoAdjacentFree (x ++ b :: y))
    (hb : b'.free = false) : NoAdjacentFree (x ++ b' :: y) := by
  obtain ⟨h1, h2, -⟩ := List.isChain_append.mp h
  obtain ⟨-, h3⟩ := List.isChain_cons.mp h2
  exact List.isChain_append.mpr ⟨h1, List.isChain_cons.mpr ⟨by simp [hb], h3⟩, by simp [hb]⟩

/-- The same with the rest of the free buffer `b` behind it. -/
theorem NoAdjacentFree.split {b' c : BinderBuffer} (h : NoAdjacentFree (x ++ b :: y))
    (hf : b.free = true) (hb : b'.free = false) : NoAdjacentFree (x ++ b' :: c :: y) := by
  obtain ⟨h1, h2, -⟩ := List.isChain_append.mp h
  obtain ⟨h3, h4⟩ := List.isChain_cons.mp h2
  refine List.isChain_append.mpr ⟨h1, List.isChain_cons.mpr ⟨by simp [hb],
    List.isChain_cons.mpr ⟨fun d hd => ?_, h4⟩⟩, by simp [hb]⟩
  exact fun hcd => h3 d hd ⟨hf, hcd.2⟩

/-- The buffer found is taken, without a rest. -/
theorem newBuf_exact (rb : RbOps BufId) (h : Inv alloc) (hl : alloc.buffers = x ++ b :: y)
    (hf : b.free = true) (hreq : requestSize dataSize offsetsSize extraBuffersSize = .ok size)
    (hspace : isAsync = true → addSize size sizeofBinderBuffer ≤ alloc.freeAsyncSpace)
    (hsize : alloc.sizeBefore b y = max size sizeofPtr) :
    ∃ alloc', takeBuffer rb alloc b.id (max size sizeofPtr) dataSize offsetsSize extraBuffersSize
        isAsync = some alloc' ∧ Inv alloc' ∧ SameSpace alloc alloc' ∧
      NewBuf alloc alloc' b.id dataSize offsetsSize extraBuffersSize isAsync := by
  obtain ⟨hs, hml, -, -⟩ := h.size hl
  have hlen := b.ptr_le_minLen
  have hmin : (b.taken dataSize offsetsSize extraBuffersSize isAsync).minLen = max size sizeofPtr := by
    rw [(requestSize_ok hreq).1]
    rfl
  obtain ⟨alloc', heq, hcore, hl', hft, hat, hasync, hb, hbs, hv⟩ := takeBuffer_spec rb
    (max size sizeofPtr) h.toCore hl hf h.freeTree h.allocTree (by rw [hmin]; omega)
  have hna := h.noAdj
  rw [hl] at hna
  refine ⟨alloc', heq, ⟨hcore, hft, hat, ?_, by simp [hl']⟩, ⟨hb, hbs, hv⟩,
    ⟨size, hreq, hspace, hasync⟩, x, b, y, [], hl, rfl, hf, hl', by simp, fun size' hreq' => ?_⟩
  · rw [hl']
    exact hna.taken rfl
  · rw [hreq] at hreq'
    cases hreq'
    rw [List.nil_append]
    omega

/-- The buffer found is split, and its first part taken. -/
theorem newBuf_split (rb : RbOps BufId) {new : BufId} (h : Inv alloc)
    (hl : alloc.buffers = x ++ b :: y) (hf : b.free = true)
    (hreq : requestSize dataSize offsetsSize extraBuffersSize = .ok size)
    (hspace : isAsync = true → addSize size sizeofBinderBuffer ≤ alloc.freeAsyncSpace)
    (hnew : new ∉ alloc.buffers.map (·.id)) (hsize : max size sizeofPtr < alloc.sizeBefore b y) :
    ∃ alloc₁ alloc', splitBuffer rb alloc b.id new (max size sizeofPtr) = some alloc₁ ∧
      takeBuffer rb alloc₁ b.id (max size sizeofPtr) dataSize offsetsSize extraBuffersSize
        isAsync = some alloc' ∧ Inv alloc' ∧ SameSpace alloc alloc' ∧
      NewBuf alloc alloc' b.id dataSize offsetsSize extraBuffersSize isAsync := by
  obtain ⟨hcont, hmod⟩ := requestSize_ok hreq
  have hmod' : max size sizeofPtr % sizeofPtr = 0 := by
    rcases Nat.le_total size sizeofPtr with hle | hle
    · rw [Nat.max_eq_right hle]
      exact Nat.mod_self _
    · rw [Nat.max_eq_left hle]
      exact hmod
  have hmin : (b.taken dataSize offsetsSize extraBuffersSize isAsync).minLen = max size sizeofPtr := by
    rw [hcont]
    rfl
  obtain ⟨alloc₁, heq₁, hcore₁, hl₁, hft₁, hat₁, has₁, hb₁, hbs₁, hv₁⟩ := splitBuffer_spec rb
    h.toCore hl hf h.freeTree hnew (Nat.le_max_right _ _) hmod' hsize
  have hids : idsOf false alloc₁.buffers = idsOf false alloc.buffers := by
    rw [hl₁, hl]
    simp only [idsOf_append]
    rw [idsOf_cons_ne (by simp [hf]), idsOf_cons_ne (by simp [BinderBuffer.zeroed]),
      idsOf_cons_ne (by simp [hf])]
  obtain ⟨alloc', heq, hcore, hl', hft, hat, hasync, hb, hbs, hv⟩ := takeBuffer_spec rb
    (max size sizeofPtr) hcore₁ hl₁ hf hft₁ (by rw [hat₁, hids]; exact h.allocTree)
    (by rw [hmin]; simp [BinderBuffer.zeroed])
  have hna := h.noAdj
  rw [hl] at hna
  refine ⟨alloc₁, alloc', heq₁, heq, ⟨hcore, hft, hat, ?_, by simp [hl']⟩,
    ⟨hb.trans hb₁, hbs.trans hbs₁, hv.trans hv₁⟩,
    ⟨size, hreq, hspace, by rw [hasync, has₁]⟩, x, b, y, [_], hl, rfl, hf, hl', ?_, fun size' hreq' => ?_⟩
  · rw [hl']
    exact hna.split hf rfl
  · simp [BinderBuffer.zeroed]
  · rw [hreq] at hreq'
    cases hreq'
    rfl

/-- A call that ends, with the invariant kept: if it fails, only pages have changed, and if it
succeeds, one free buffer was taken as `NewBuf` says. -/
def NewBufOk (alloc : BinderAlloc) (dataSize offsetsSize extraBuffersSize : Nat) (isAsync : Bool)
    (o : Option (Except Errno BufId × BinderAlloc)) : Prop :=
  ∃ r alloc', o = some (r, alloc') ∧ Inv alloc' ∧ SameSpace alloc alloc' ∧
    (∀ e, r = .error e → alloc' = { alloc with pages := alloc'.pages }) ∧
    ∀ id, r = .ok id → NewBuf alloc alloc' id dataSize offsetsSize extraBuffersSize isAsync

theorem Inv.pages (h : Inv alloc) (pages : Pages) : Inv { alloc with pages } :=
  ⟨⟨h.tiles, h.aligned, h.ids, h.txn, h.bound, h.stopAligned⟩, h.freeTree, h.allocTree, h.noAdj,
    h.nonempty⟩

theorem NewBufOk.error (h : Inv alloc) (e : Errno) (pages : Pages) :
    NewBufOk alloc dataSize offsetsSize extraBuffersSize isAsync
      (some (.error e, { alloc with pages })) :=
  ⟨_, _, rfl, h.pages pages, ⟨rfl, rfl, rfl⟩, fun _ _ => rfl, by simp⟩

theorem NewBufOk.ok {alloc' : BinderAlloc} {id : BufId} (pages : Pages) (h : Inv alloc')
    (hs : SameSpace { alloc with pages } alloc')
    (hn : NewBuf { alloc with pages } alloc' id dataSize offsetsSize extraBuffersSize isAsync) :
    NewBufOk alloc dataSize offsetsSize extraBuffersSize isAsync (some (.ok id, alloc')) :=
  ⟨_, _, rfl, h, hs, by simp, fun id hid => by cases hid; exact ⟨hn.request, hn.list⟩⟩

/-- **`binder_alloc_new_buf_locked`** never stops with a `BUG_ON`, and does what `NewBufOk` says. -/
theorem binderAllocNewBufLocked_spec (rb : RbOps BufId) (env : PageEnv) (kzalloc : Option BufId)
    (h : Inv alloc) (hk : ∀ new ∈ kzalloc, new ∉ alloc.buffers.map (·.id)) :
    NewBufOk alloc dataSize offsetsSize extraBuffersSize isAsync
      (binderAllocNewBufLocked rb env kzalloc alloc dataSize offsetsSize extraBuffersSize
        isAsync) := by
  unfold binderAllocNewBufLocked
  split
  · exact .error h .ESRCH alloc.pages
  split
  · rename_i e _
    exact .error h e alloc.pages
  rename_i size hreq
  split
  · exact .error h .ENOSPC alloc.pages
  rename_i hadm
  have hspace : isAsync = true → addSize size sizeofBinderBuffer ≤ alloc.freeAsyncSpace := fun ha => by
    simpa [ha] using hadm
  obtain ⟨r, hbest, hfits⟩ := bestFit_spec (max size sizeofPtr) none h.toCore
    (TreeIn.of_perm h.freeTree) (by simp)
  simp only [hbest]
  cases r with
  | none => exact .error h .ENOSPC alloc.pages
  | some id =>
    obtain ⟨x, b, y, hl, rfl, hf, hsize⟩ := hfits id rfl
    have hids := h.ids
    rw [hl] at hids
    have hloc : locate b.id alloc.buffers = some (x, b, y) := by rw [hl]; exact locate_split hids
    simp only [hloc, h.toCore.bufferSize hl, Option.bind_eq_bind, Option.bind_some]
    split
    · rename_i e pages _
      exact .error h e pages
    · rename_i pages _
      split
      · rename_i hne
        cases kzalloc with
        | none => exact .error h .ENOMEM _
        | some new =>
          obtain ⟨alloc₁, alloc', heq₁, heq, hinv, hsame, hnew⟩ := newBuf_split rb
            (h.pages pages) hl hf hreq hspace (hk new rfl)
            (Nat.lt_of_le_of_ne hsize fun he => hne he.symm)
          simp only [heq₁, heq, Option.bind_some]
          exact .ok pages hinv hsame hnew
      · rename_i heqs
        obtain ⟨alloc', heq, hinv, hsame, hnew⟩ := newBuf_exact rb (h.pages pages) hl hf hreq
          hspace (not_not.mp heqs)
        simp only [heq, Option.bind_some]
        exact .ok pages hinv hsame hnew

end NewBuf

/-! ## Free -/

section Free

/-- `binder_delete_free_buffer`: the buffer `c` behind the free buffer `a` leaves the list. -/
theorem binderDeleteFreeBuffer_spec {c a : BinderBuffer}
    (hids : (alloc.buffers.map (·.id)).Nodup) (hl : alloc.buffers = x ++ a :: c :: y)
    (hf : a.free = true) :
    binderDeleteFreeBuffer alloc c.id = some { alloc with buffers := x ++ a :: y } := by
  have hl' : alloc.buffers = (x ++ [a]) ++ c :: y := by simp [hl]
  rw [hl'] at hids
  have hloc : locate c.id alloc.buffers = some (x ++ [a], c, y) := by
    rw [hl']
    exact locate_split hids
  have hlast : (x ++ [a]).getLast? = some a := List.getLast?_concat
  simp only [binderDeleteFreeBuffer, hloc, hlast, hf, Option.bind_eq_bind, Option.bind_some,
    guard_true, List.append_assoc, List.singleton_append, binderFreePageRange_eq, ite_self]
  rfl

/-- `binder_free_buf_locked` between its two merges: `b` is free, but not yet in the free tree,
and the buffer behind it is not free. -/
structure Freeing (alloc : BinderAlloc) (x : List BinderBuffer) (b : BinderBuffer)
    (y : List BinderBuffer) : Prop extends Core alloc where
  list : alloc.buffers = x ++ b :: y
  free : b.free = true
  freeTree : alloc.freeBuffers.toList.Perm (idsOf true (x ++ y))
  allocTree : alloc.allocatedBuffers.toList.Perm (idsOf false (x ++ y))
  before : NoAdjacentFree x
  after : NoAdjacentFree y
  next : ∀ n ∈ y.head?, n.free = false

/-- The list without the buffer behind `b`. -/
theorem Core.delete {a c : BinderBuffer} {alloc' : BinderAlloc} (h : Core alloc)
    (hl : alloc.buffers = x ++ a :: c :: y) (hl' : alloc'.buffers = x ++ a :: y)
    (hb : alloc'.buffer = alloc.buffer) (hs : alloc'.bufferSize = alloc.bufferSize) :
    Core alloc' := by
  have hstop : alloc'.stop = alloc.stop := by simp only [BinderAlloc.stop, hb, hs]
  have hsub : alloc'.buffers.Sublist alloc.buffers := by
    rw [hl, hl']
    exact (List.Sublist.refl x).append ((List.sublist_cons_self c y).cons_cons a)
  have ht := h.tiles
  rw [hl] at ht
  refine ⟨?_, fun d hd => h.aligned d (hsub.subset hd), h.ids.sublist (hsub.map _),
    fun d hd => h.txn d (hsub.subset hd), hstop ▸ h.bound, hstop ▸ h.stopAligned⟩
  rw [hl', hb, hstop]
  exact ht.merge

/-- The end of `binder_free_buf_locked`: the merge with the buffer before. -/
theorem mergePrev_spec (rb : RbOps BufId) (h : Freeing alloc x b y) :
    ∃ alloc', mergePrev rb alloc b.id x = some alloc' ∧
      Inv alloc' ∧ SameSpace alloc alloc' ∧ alloc'.freeAsyncSpace = alloc.freeAsyncSpace ∧
      alloc'.buffers.filter (!·.free) = (x ++ y).filter (!·.free) ∧
      alloc'.pages = alloc.pages ∧
      usedSpans alloc'.stop alloc'.buffers = usedSpans alloc.stop (x ++ b :: y) := by
  have hl := h.list
  -- `b` stays on its own
  have hown : (∀ p ∈ x.getLast?, p.free = false) → ∃ alloc',
      binderInsertFreeBuffer rb alloc b.id = some alloc' ∧ Inv alloc' ∧ SameSpace alloc alloc' ∧
      alloc'.freeAsyncSpace = alloc.freeAsyncSpace ∧
      alloc'.buffers.filter (!·.free) = (x ++ y).filter (!·.free) ∧
      alloc'.pages = alloc.pages ∧
      usedSpans alloc'.stop alloc'.buffers = usedSpans alloc.stop (x ++ b :: y) := fun hprev => by
    have ht : TreeIn true alloc alloc.freeBuffers := fun id hid => by
      obtain ⟨d, hd, hdf, he⟩ := mem_idsOf.mp (h.freeTree.subset hid)
      refine ⟨d, ?_, he, hdf⟩
      rw [hl]
      simp only [List.mem_append, List.mem_cons] at hd ⊢
      tauto
    obtain ⟨t, hins, hperm⟩ := binderInsertFreeBuffer_spec rb h.toCore ht
      (show b ∈ alloc.buffers by rw [hl]; simp) h.free
    refine ⟨_, hins, ⟨⟨h.tiles, h.aligned, h.ids, h.txn, h.bound, h.stopAligned⟩, ?_, ?_, ?_, ?_⟩,
      ⟨rfl, rfl, rfl⟩, rfl, ?_, rfl, by rw [← hl]; rfl⟩
    · rw [hl, idsOf_append, idsOf_cons_eq h.free]
      have := h.freeTree
      rw [idsOf_append] at this
      exact (hperm.trans (this.cons _)).trans List.perm_middle.symm
    · rw [hl, idsOf_append, idsOf_cons_ne (by simp [h.free]), ← idsOf_append]
      exact h.allocTree
    · rw [hl]
      refine List.isChain_append.mpr ⟨h.before, List.isChain_cons.mpr ⟨fun n hn => ?_, h.after⟩,
        fun p hp _ _ => ?_⟩
      · simp [h.next n hn]
      · simp [hprev p hp]
    · simp [hl]
    · simp [hl, h.free]
  rcases List.eq_nil_or_concat' x with rfl | ⟨x', p, rfl⟩
  · exact hown (by simp)
  by_cases hp : p.free = true
  · -- `b` is merged into `p`
    have hl₁ : alloc.buffers = x' ++ p :: b :: y := by simp [hl]
    have hft := h.freeTree
    simp only [List.append_assoc, List.singleton_append, idsOf_append, idsOf_cons_eq hp] at hft
    have hat := h.allocTree
    simp only [List.append_assoc, List.singleton_append, idsOf_append,
      idsOf_cons_ne (show p.free ≠ false by simp [hp])] at hat
    have hdel := binderDeleteFreeBuffer_spec h.ids hl₁ hp
    let alloc₂ : BinderAlloc := { alloc with
      buffers := x' ++ p :: y, freeBuffers := rb.erase alloc.freeBuffers p.id }
    have hcore : Core alloc₂ := h.toCore.delete hl₁ rfl rfl rfl
    have herase : alloc₂.freeBuffers.toList.Perm (idsOf true x' ++ idsOf true y) := perm_erase hft
    have ht : TreeIn true alloc₂ alloc₂.freeBuffers := fun id hid => by
      rw [herase.mem_iff, ← idsOf_append] at hid
      obtain ⟨d, hd, hdf, he⟩ := mem_idsOf.mp hid
      refine ⟨d, ?_, he, hdf⟩
      simp only [alloc₂, List.mem_append, List.mem_cons] at hd ⊢
      tauto
    obtain ⟨t, hins, hperm⟩ := binderInsertFreeBuffer_spec rb hcore ht
      (show p ∈ x' ++ p :: y by simp) hp
    refine ⟨{ alloc₂ with freeBuffers := t }, ?_, ⟨⟨hcore.tiles, hcore.aligned, hcore.ids, hcore.txn,
      hcore.bound, hcore.stopAligned⟩, ?_, ?_, ?_, ?_⟩, ⟨rfl, rfl, rfl⟩, rfl, ?_, rfl, ?_⟩
    · simp only [mergePrev, List.getLast?_concat, hp, if_true, hdel, Option.bind_eq_bind,
        Option.bind_some]
      exact hins
    · simp only [alloc₂, idsOf_append, idsOf_cons_eq hp]
      exact (hperm.trans (herase.cons _)).trans List.perm_middle.symm
    · simp only [alloc₂, idsOf_append, idsOf_cons_ne (show p.free ≠ false by simp [hp])]
      exact hat
    · simp only [alloc₂]
      rw [show x' ++ p :: y = (x' ++ [p]) ++ y by simp]
      refine List.isChain_append.mpr ⟨h.before, h.after, fun a _ n hn => ?_⟩
      simp [h.next n hn]
    · simp [alloc₂]
    · simp [alloc₂, hp]
    · rw [List.append_assoc, List.singleton_append, usedSpans_delete hp h.free]
      rfl
  · simp only [mergePrev, List.getLast?_concat, hp]
    exact hown (by simpa using hp)

/-- The merge of `binder_free_buf_locked` with the buffer behind. -/
theorem mergeNext_spec (rb : RbOps BufId) (h : Core alloc) (hl : alloc.buffers = x ++ b :: y)
    (hf : b.free = true) (hft : alloc.freeBuffers.toList.Perm (idsOf true (x ++ y)))
    (hat : alloc.allocatedBuffers.toList.Perm (idsOf false (x ++ y))) (hx : NoAdjacentFree x)
    (hy : NoAdjacentFree y) :
    ∃ alloc' y', mergeNext rb alloc y = some alloc' ∧
      Freeing alloc' x b y' ∧ SameSpace alloc alloc' ∧
      alloc'.freeAsyncSpace = alloc.freeAsyncSpace ∧
      y'.filter (!·.free) = y.filter (!·.free) ∧ alloc'.pages = alloc.pages ∧
      usedSpans alloc'.stop (x ++ b :: y') = usedSpans alloc.stop (x ++ b :: y) := by
  cases y with
  | nil =>
    exact ⟨alloc, [], rfl, ⟨h, hl, hf, hft, hat, hx, hy, by simp⟩, ⟨rfl, rfl, rfl⟩, rfl, rfl, rfl, rfl⟩
  | cons n z =>
    obtain ⟨hn, hz⟩ := List.isChain_cons.mp hy
    by_cases hnf : n.free = true
    · -- `n` is merged into `b`
      simp only [idsOf_append, idsOf_cons_eq hnf] at hft
      simp only [idsOf_append, idsOf_cons_ne (show n.free ≠ false by simp [hnf])] at hat
      let alloc₁ : BinderAlloc := { alloc with freeBuffers := rb.erase alloc.freeBuffers n.id }
      have hdel := binderDeleteFreeBuffer_spec
        (show (alloc₁.buffers.map (·.id)).Nodup from h.ids) hl hf
      refine ⟨{ alloc₁ with buffers := x ++ b :: z }, z, ?_, ⟨h.delete hl rfl rfl rfl, rfl, hf,
        ?_, ?_, hx, hz, fun m hm => ?_⟩, ⟨rfl, rfl, rfl⟩, rfl, by simp [hnf], rfl,
        (usedSpans_delete hf hnf).symm⟩
      · simp only [mergeNext, hnf, if_true]
        exact hdel
      · rw [idsOf_append]
        exact perm_erase hft
      · rw [idsOf_append]
        exact hat
      · simpa using fun hmf => hn m hm ⟨hnf, hmf⟩
    · refine ⟨alloc, n :: z, by simp [mergeNext, hnf], ⟨h, hl, hf, hft, hat, hx, hy, fun m hm => ?_⟩,
        ⟨rfl, rfl, rfl⟩, rfl, rfl, rfl, rfl⟩
      cases hm
      simpa using hnf

/-- What a successful `binder_free_buf_locked` does to the space for async buffers. -/
def freedAsyncSpace (alloc : BinderAlloc) (b : BinderBuffer) : Nat :=
  if b.asyncTransaction then
    addSize alloc.freeAsyncSpace (addSize b.contentSize sizeofBinderBuffer)
  else alloc.freeAsyncSpace

/-- **`binder_free_buf_locked`** of an allocated buffer without a transaction never stops with a
`BUG_ON`; the other allocated buffers stay, and the space of an async buffer is given back. -/
theorem binderFreeBufLocked_spec (rb : RbOps BufId) (h : Inv alloc)
    (hl : alloc.buffers = x ++ b :: y) (hf : b.free = false) (htx : b.transaction = none) :
    ∃ alloc', binderFreeBufLocked rb alloc b.id = some alloc' ∧ Inv alloc' ∧
      SameSpace alloc alloc' ∧ alloc'.freeAsyncSpace = freedAsyncSpace alloc b ∧
      alloc'.buffers.filter (!·.free) = (x ++ y).filter (!·.free) ∧
      alloc'.pages = alloc.pages ∧
      usedSpans alloc'.stop alloc'.buffers =
        usedSpans b.userData x ++ usedSpans alloc.stop y := by
  have hcore := h.toCore
  obtain ⟨hsz, hfit, hend, -⟩ := hcore.size hl
  have hbm : b ∈ alloc.buffers := by rw [hl]; simp
  have hbounds := hcore.tiles.mem_bounds hbm
  have hmin : b.minLen = max b.contentSize sizeofPtr := by simp [BinderBuffer.minLen, hf]
  have hids := hcore.ids
  have hna := h.noAdj
  have hft := h.freeTree
  have hat := h.allocTree
  rw [hl] at hids hna
  rw [hl, idsOf_append, idsOf_cons_ne (by simp [hf]), ← idsOf_append] at hft
  rw [hl, idsOf_append, idsOf_cons_eq hf] at hat
  obtain ⟨hx, hby, -⟩ := List.isChain_append.mp hna
  have hloc : locate b.id alloc.buffers = some (x, b, y) := by rw [hl]; exact locate_split hids
  -- the checks
  have hg1 : b.contentSize ≤ alloc.sizeBefore b y := by omega
  have hg2 : alloc.buffer ≤ b.userData := hbounds.1
  have hg3 : b.userData ≤ alloc.stop := by omega
  have hg4 : b.transaction.isNone = true := by rw [htx]; rfl
  -- marked free, out of the tree of allocated buffers
  let b₁ : BinderBuffer := { b with free := true }
  let alloc₁ : BinderAlloc := { alloc with
    freeAsyncSpace := freedAsyncSpace alloc b
    pages := binderFreePageRange alloc (pageAlign b.userData)
      (pageMask (addSize b.userData (alloc.sizeBefore b y)))
    allocatedBuffers := rb.erase alloc.allocatedBuffers b.id
    buffers := x ++ b₁ :: y }
  have hcore₁ : Core alloc₁ := by
    refine hcore.replace hl (show b₁.id = b.id from rfl) rfl (fun _ => htx) ?_ rfl rfl rfl
    have : b₁.minLen = sizeofPtr := rfl
    omega
  obtain ⟨alloc₂, y', heq₂, hfr, hsame₂, hasync₂, hfilter, hpages₂, hspans₂⟩ :=
    mergeNext_spec rb hcore₁ rfl rfl hft
    (by rw [idsOf_append]; exact perm_erase hat) hx (List.isChain_cons.mp hby).2
  obtain ⟨alloc', heq, hinv, hsame, hasync, hfilter', hpages, hspans⟩ := mergePrev_spec rb hfr
  refine ⟨alloc', ?_, hinv, ⟨hsame.1.trans hsame₂.1, hsame.2.1.trans hsame₂.2.1,
    hsame.2.2.trans hsame₂.2.2⟩, hasync.trans hasync₂, ?_, ?_, ?_⟩
  · unfold binderFreeBufLocked
    simp only [hloc, hcore.bufferSize hl, Option.bind_eq_bind, Option.bind_some, hf, Bool.not_false,
      guard_true, hg4]
    rw [show addSize (addSize (alignPtr b.dataSize) (alignPtr b.offsetsSize))
      (alignPtr b.extraBuffersSize) = b.contentSize from rfl]
    simp only [hg1, hg2, hg3, guard_true, Option.pure_def, Option.bind_some]
    exact Option.bind_eq_some_iff.mpr ⟨alloc₂, heq₂, heq⟩
  · rw [hfilter', List.filter_append, List.filter_append, hfilter]
  · rw [hpages, hpages₂]
    exact binderFreePageRange_eq
  · rw [hspans, hspans₂, usedSpans_append, usedSpans_free (b := b₁) rfl]
    rfl

end Free

end Redroid.Binder
