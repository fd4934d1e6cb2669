import Redroid.Binder.AllocRun

/-!
# The free tree is ordered by size, and the allocation is a best fit

The key of a node of `free_buffers` is not stored: `binder_alloc_buffer_size` computes it from the
neighbours in the list, so editing the list changes keys of nodes that are in the tree.

* `SizeOrdered`: the in-order sequence of the tree does not decrease in the sizes as they are now.
* `bestFit_first`: the search ends at a buffer of the size asked for, or at the first one in the
  sequence that is larger. So a split, which leaves that buffer in the tree with the size asked for,
  keeps the order; a merge takes every buffer that grows out of the tree before it searches.
* `allocSys_bestFit`: in every run the tree is ordered, and an allocation takes a smallest free buffer
  that is large enough.
-/

namespace Redroid.Binder

/-- `binder_alloc_buffer_size`; 0 if `id` points to no struct. -/
def BinderAlloc.sizeOf (alloc : BinderAlloc) (id : BufId) : Nat :=
  (alloc.binderAllocBufferSize id).getD 0

/-- The in-order sequence of the free tree does not decrease in the sizes. -/
def SizeOrdered (alloc : BinderAlloc) : Prop :=
  alloc.freeBuffers.toList.Pairwise fun a b => alloc.sizeOf a ≤ alloc.sizeOf b

variable {rb : RbOps BufId} {alloc alloc' : BinderAlloc} {x y : List BinderBuffer}
  {a b b' c : BinderBuffer} {id new : BufId} {size dataSize offsetsSize extraBuffersSize : Nat}
  {isAsync : Bool} {env : PageEnv} {kzalloc : Option BufId}

/-! ## Sizes after an edit of the list -/

theorem sizeOf_eq (hids : (alloc.buffers.map (·.id)).Nodup) (hl : alloc.buffers = x ++ b :: y) :
    alloc.sizeOf b.id = subSize (endOf BinderBuffer.userData alloc.stop y) b.userData := by
  have hloc : locate b.id alloc.buffers = some (x, b, y) := by
    rw [hl] at hids ⊢
    exact locate_split hids
  simp only [BinderAlloc.sizeOf, BinderAlloc.binderAllocBufferSize, hloc, Option.bind_eq_bind,
    Option.bind_some, Option.getD_some]
  rfl

theorem endOf_append_cons {start : BinderBuffer → Nat} {hi : Nat} {z w : List BinderBuffer}
    (h : start b = start c) : endOf start hi (x ++ b :: z) = endOf start hi (x ++ c :: w) := by
  cases x with
  | nil => exact h
  | cons d x => rfl

/-- The buffers around a place in the list keep their sizes if what is put there begins at the same
address. -/
theorem sizeOf_around {m m' : List BinderBuffer} (hids : (alloc.buffers.map (·.id)).Nodup)
    (hids' : (alloc'.buffers.map (·.id)).Nodup) (hl : alloc.buffers = x ++ b :: m ++ y)
    (hl' : alloc'.buffers = x ++ b' :: m' ++ y) (hu : b'.userData = b.userData)
    (hstop : alloc'.stop = alloc.stop) (ha : a ∈ x ++ y) : alloc'.sizeOf a.id = alloc.sizeOf a.id := by
  rcases List.mem_append.mp ha with ha | ha
  · obtain ⟨x₁, x₂, rfl⟩ := List.append_of_mem ha
    have h₁ : alloc.buffers = x₁ ++ a :: (x₂ ++ b :: (m ++ y)) := by simp [hl]
    have h₂ : alloc'.buffers = x₁ ++ a :: (x₂ ++ b' :: (m' ++ y)) := by simp [hl']
    rw [sizeOf_eq hids h₁, sizeOf_eq hids' h₂, hstop, endOf_append_cons hu]
  · obtain ⟨y₁, y₂, rfl⟩ := List.append_of_mem ha
    have h₁ : alloc.buffers = (x ++ b :: m ++ y₁) ++ a :: y₂ := by simp [hl]
    have h₂ : alloc'.buffers = (x ++ b' :: m' ++ y₁) ++ a :: y₂ := by simp [hl']
    rw [sizeOf_eq hids h₁, sizeOf_eq hids' h₂, hstop]

/-- A buffer that is replaced in its place keeps its size too. -/
theorem sizeOf_replace (hids : (alloc.buffers.map (·.id)).Nodup)
    (hids' : (alloc'.buffers.map (·.id)).Nodup) (hl : alloc.buffers = x ++ b :: y)
    (hl' : alloc'.buffers = x ++ b' :: y) (hid : b'.id = b.id) (hu : b'.userData = b.userData)
    (hstop : alloc'.stop = alloc.stop) (ha : a ∈ alloc.buffers) :
    alloc'.sizeOf a.id = alloc.sizeOf a.id := by
  rw [hl, List.mem_append, List.mem_cons] at ha
  by_cases hab : a = b
  · rw [hab, sizeOf_eq hids hl, ← hid, sizeOf_eq hids' hl', hu, hstop]
  · have h₁ : alloc.buffers = x ++ b :: [] ++ y := by simp [hl]
    have h₂ : alloc'.buffers = x ++ b' :: [] ++ y := by simp [hl']
    refine sizeOf_around hids hids' h₁ h₂ hu hstop ?_
    rw [List.mem_append]
    tauto

/-! ## The tree -/

/-- A part of the tree stays ordered if the sizes of its buffers stay. -/
theorem SizeOrdered.of_sublist (h : SizeOrdered alloc)
    (ht : alloc'.freeBuffers.toList.Sublist alloc.freeBuffers.toList)
    (hsize : ∀ id ∈ alloc'.freeBuffers.toList, alloc'.sizeOf id = alloc.sizeOf id) :
    SizeOrdered alloc' := by
  refine (h.sublist ht).imp_of_mem fun {a b} ha hb hab => ?_
  rw [hsize a ha, hsize b hb]
  exact hab

theorem SizeOrdered.insert (hids : (alloc.buffers.map (·.id)).Nodup)
    (ht : TreeIn true alloc alloc.freeBuffers) (h : SizeOrdered alloc)
    (heq : binderInsertFreeBuffer rb alloc id = some alloc') : SizeOrdered alloc' := by
  simp only [binderInsertFreeBuffer, Option.bind_eq_bind, Option.bind_eq_some_iff] at heq
  obtain ⟨⟨_, _, _⟩, -, _, -, n, hn, tree, hins, heq⟩ := heq
  cases heq
  have hkey : alloc.sizeOf id = n := by rw [BinderAlloc.sizeOf, hn, Option.getD_some]
  have hvisit : ∀ j ∈ alloc.freeBuffers.toList,
      bySize alloc n j = some (decide (alloc.sizeOf id < alloc.sizeOf j)) := by
    intro j hj
    obtain ⟨d, hd, rfl, hf⟩ := ht j hj
    obtain ⟨x, y, hl, hloc⟩ := locate_mem hids hd
    have hsz : alloc.binderAllocBufferSize d.id = some (alloc.sizeOf d.id) := by
      simp [BinderAlloc.sizeOf, BinderAlloc.binderAllocBufferSize, hloc]
    simp only [bySize, hloc, hf, hsz, hkey, Option.bind_eq_bind, Option.bind_some, guard_true]
    rfl
  have hsorted := RbTree.insertBy_pairwise hvisit h hins
  rw [← rb.toList_insertColor tree id] at hsorted
  exact hsorted

/-- Where the search ends: at a buffer of the size asked for, or else at the first larger one of the
sequence, if there is one. -/
theorem bestFit_first (size : Nat) (hids : (alloc.buffers.map (·.id)).Nodup) {t : RbTree BufId}
    (ht : TreeIn true alloc t) (hs : t.toList.Pairwise fun a b => alloc.sizeOf a ≤ alloc.sizeOf b)
    (best : Option BufId) : ∃ r, bestFit alloc size t best = some r ∧
      ((∃ id ∈ t.toList, r = some id ∧ alloc.sizeOf id = size) ∨
        (∀ id ∈ t.toList, alloc.sizeOf id ≠ size) ∧
          r = (t.toList.find? fun id => size < alloc.sizeOf id).or best) := by
  induction t generalizing best with
  | leaf => exact ⟨best, rfl, .inr ⟨by simp, by simp⟩⟩
  | node c left id right ihl ihr =>
    obtain ⟨d, hd, rfl, hf⟩ := ht id (by simp)
    obtain ⟨x, y, hl, hloc⟩ := locate_mem hids hd
    have hsz : alloc.binderAllocBufferSize d.id = some (alloc.sizeOf d.id) := by
      simp [BinderAlloc.sizeOf, BinderAlloc.binderAllocBufferSize, hloc]
    obtain ⟨hsl, hsr, hlr⟩ := List.pairwise_append.mp hs
    obtain ⟨hdr, hsr⟩ := List.pairwise_cons.mp hsr
    have hld : ∀ j ∈ left.toList, alloc.sizeOf j ≤ alloc.sizeOf d.id := fun j hj =>
      hlr j hj d.id List.mem_cons_self
    simp only [bestFit, hloc, hf, hsz, Option.bind_eq_bind, Option.bind_some, guard_true]
    rcases Nat.lt_trichotomy size (alloc.sizeOf d.id) with hlt | heq | hgt
    · obtain ⟨r, hr, hcase⟩ := ihl (fun z hz => ht z (by simp [hz])) hsl (some d.id)
      rw [if_pos hlt]
      refine ⟨r, hr, ?_⟩
      rcases hcase with ⟨id, hid, hrid, hsize⟩ | ⟨hno, hrid⟩
      · exact .inl ⟨id, by simp [hid], hrid, hsize⟩
      · refine .inr ⟨fun j hj => ?_, ?_⟩
        · rw [RbTree.toList_node, List.mem_append, List.mem_cons] at hj
          rcases hj with hj | rfl | hj
          · exact hno j hj
          · omega
          · have := hdr j hj
            omega
        · rw [hrid, RbTree.toList_node, List.find?_append, List.find?_cons_of_pos (by simpa using hlt)]
          cases left.toList.find? fun id => size < alloc.sizeOf id <;> rfl
    · rw [if_neg (by omega), if_neg (by omega)]
      exact ⟨_, rfl, .inl ⟨d.id, by simp, rfl, heq.symm⟩⟩
    · obtain ⟨r, hr, hcase⟩ := ihr (fun z hz => ht z (by simp [hz])) hsr best
      rw [if_neg (by omega), if_pos hgt]
      refine ⟨r, hr, ?_⟩
      have hsmall : ∀ j ∈ left.toList, ¬ size < alloc.sizeOf j := fun j hj => by
        have := hld j hj
        omega
      rcases hcase with ⟨id, hid, hrid, hsize⟩ | ⟨hno, hrid⟩
      · exact .inl ⟨id, by simp [hid], hrid, hsize⟩
      · refine .inr ⟨fun j hj => ?_, ?_⟩
        · rw [RbTree.toList_node, List.mem_append, List.mem_cons] at hj
          rcases hj with hj | rfl | hj
          · have := hld j hj
            omega
          · omega
          · exact hno j hj
        · have hleft : left.toList.find? (fun id => decide (size < alloc.sizeOf id)) = none :=
            List.find?_eq_none.mpr fun j hj => by simpa using hsmall j hj
          rw [hrid, RbTree.toList_node, List.find?_append, hleft,
            List.find?_cons_of_neg (by simpa using Nat.le_of_lt hgt), Option.none_or]

/-! ## Allocation -/

/-- What the search has found: a buffer of the size asked for, or the first larger one. -/
def FoundFirst (alloc : BinderAlloc) (size : Nat) (id : BufId) : Prop :=
  ∃ l₁ l₂, alloc.freeBuffers.toList = l₁ ++ id :: l₂ ∧
    (alloc.sizeOf id = size ∨ size < alloc.sizeOf id ∧ ∀ j ∈ l₁, alloc.sizeOf j < size)

theorem bestFit_found (h : Inv alloc) (hs : SizeOrdered alloc) (size : Nat) :
    ∃ r, bestFit alloc size alloc.freeBuffers none = some r ∧
      (∀ id, r = some id → FoundFirst alloc size id) ∧
      (r = none → ∀ id ∈ alloc.freeBuffers.toList, alloc.sizeOf id < size) := by
  obtain ⟨r, hr, hcase⟩ := bestFit_first size h.ids (TreeIn.of_perm h.freeTree) hs none
  refine ⟨r, hr, fun id hid => ?_, fun hnone id hid => ?_⟩
  · subst hid
    rcases hcase with ⟨j, hj, he, hsize⟩ | ⟨hno, he⟩
    · cases he
      obtain ⟨l₁, l₂, hl⟩ := List.append_of_mem hj
      exact ⟨l₁, l₂, hl, .inl hsize⟩
    · rw [Option.or_none] at he
      obtain ⟨hlt, l₁, l₂, hl, hbefore⟩ := List.find?_eq_some_iff_append.mp he.symm
      refine ⟨l₁, l₂, hl, .inr ⟨by simpa using hlt, fun j hj => ?_⟩⟩
      have hne := hno j (by rw [hl]; simp [hj])
      have hle : ¬ size < alloc.sizeOf j := by simpa using hbefore j hj
      omega
  · subst hnone
    rcases hcase with ⟨j, hj, he, hsize⟩ | ⟨hno, he⟩
    · cases he
    · rw [Option.or_none] at he
      have hle := List.find?_eq_none.mp he.symm id hid
      rw [decide_eq_true_eq] at hle
      have hne := hno id hid
      omega

/-- The buffer found is a smallest one that is large enough. -/
theorem FoundFirst.least (hs : SizeOrdered alloc) (h : FoundFirst alloc size id) :
    size ≤ alloc.sizeOf id ∧
      ∀ j ∈ alloc.freeBuffers.toList, size ≤ alloc.sizeOf j → alloc.sizeOf id ≤ alloc.sizeOf j := by
  obtain ⟨l₁, l₂, hl, hcase⟩ := h
  rw [SizeOrdered, hl] at hs
  obtain ⟨-, hs₂, -⟩ := List.pairwise_append.mp hs
  rcases hcase with hsize | ⟨hlt, hbefore⟩
  · exact ⟨Nat.le_of_eq hsize.symm, fun j _ hj => by omega⟩
  · refine ⟨Nat.le_of_lt hlt, fun j hj hsize => ?_⟩
    rw [hl, List.mem_append, List.mem_cons] at hj
    rcases hj with hj | rfl | hj
    · have := hbefore j hj
      omega
    · exact Nat.le_refl _
    · exact (List.pairwise_cons.mp hs₂).1 j hj

theorem Inv.nodup_free (h : Inv alloc) : alloc.freeBuffers.toList.Nodup := by
  rw [h.freeTree.nodup_iff]
  exact h.ids.sublist (List.filter_sublist.map _)

theorem takeBuffer_freeBuffers (h : takeBuffer rb alloc id size dataSize offsetsSize extraBuffersSize
    isAsync = some alloc') : alloc'.freeBuffers = rb.erase alloc.freeBuffers id := by
  simp only [takeBuffer, binderInsertAllocatedBufferLocked, Option.bind_eq_bind,
    Option.bind_eq_some_iff] at h
  obtain ⟨⟨_, _, _⟩, -, _, ⟨⟨_, _, _⟩, -, _, -, _, -, h₁⟩, ⟨_, _, _⟩, -, h⟩ := h
  cases h
  cases h₁
  rfl

/-- Taking a free buffer out of the tree keeps the order. -/
theorem SizeOrdered.take (hc : Core alloc) (h : SizeOrdered alloc)
    (hl : alloc.buffers = x ++ b :: y) (hf : b.free = true)
    (hft : alloc.freeBuffers.toList.Perm (idsOf true alloc.buffers))
    (hat : alloc.allocatedBuffers.toList.Perm (idsOf false alloc.buffers))
    (hfit : b.userData + (b.taken dataSize offsetsSize extraBuffersSize isAsync).minLen ≤
      endOf BinderBuffer.userData alloc.stop y)
    (heq : takeBuffer rb alloc b.id size dataSize offsetsSize extraBuffersSize isAsync =
      some alloc') : SizeOrdered alloc' := by
  obtain ⟨alloc₁, heq₁, hc', hl', -, -, -, hb, hbs, -⟩ := takeBuffer_spec rb size hc hl hf hft hat hfit
  rw [heq] at heq₁
  cases heq₁
  have hstop : alloc'.stop = alloc.stop := by simp only [BinderAlloc.stop, hb, hbs]
  have hsub : alloc'.freeBuffers.toList.Sublist alloc.freeBuffers.toList := by
    rw [takeBuffer_freeBuffers heq, rb.toList_erase]
    exact List.erase_sublist
  refine h.of_sublist hsub fun id hid => ?_
  obtain ⟨d, hd, rfl, -⟩ := TreeIn.of_perm hft id (hsub.subset hid)
  refine sizeOf_replace hc.ids hc'.ids hl hl' ?_ ?_ hstop hd <;> rfl

/-- The buffer found has the size asked for after its rest has become a buffer of its own, and the
order stays. -/
theorem SizeOrdered.split (hc : Core alloc) (hc' : Core alloc') (h : SizeOrdered alloc)
    (ht : TreeIn true alloc alloc.freeBuffers) (hn : alloc.freeBuffers.toList.Nodup)
    (hl : alloc.buffers = x ++ b :: y)
    (hl' : alloc'.buffers = x ++ b :: .zeroed new (b.userData + size) :: y)
    (hstop : alloc'.stop = alloc.stop) (htree : alloc'.freeBuffers = alloc.freeBuffers)
    (hfirst : FoundFirst alloc size b.id) (hne : alloc.sizeOf b.id ≠ size) : SizeOrdered alloc' := by
  obtain ⟨l₁, l₂, htl, hcase⟩ := hfirst
  obtain ⟨hlt, hbefore⟩ := hcase.resolve_left hne
  have hb : alloc'.sizeOf b.id = size := by
    have hbd := hc'.size (x := x ++ [b]) (y := y) (b := .zeroed new (b.userData + size)) (by simp [hl'])
    have hbound := hc'.bound
    have hmin := BinderBuffer.ptr_le_minLen (.zeroed new (b.userData + size))
    have hu : (BinderBuffer.zeroed new (b.userData + size)).userData = b.userData + size := rfl
    rw [sizeOf_eq hc'.ids hl', endOf_cons, subSize_eq (by omega) (by omega)]
    omega
  have hother : ∀ j ∈ l₁ ++ l₂, alloc'.sizeOf j = alloc.sizeOf j := by
    intro j hj
    have hjt : j ∈ alloc.freeBuffers.toList := by
      rw [htl]
      simp only [List.mem_append, List.mem_cons] at hj ⊢
      tauto
    obtain ⟨d, hd, rfl, -⟩ := ht j hjt
    have h₁ : alloc.buffers = x ++ b :: [] ++ y := by simp [hl]
    have h₂ : alloc'.buffers = x ++ b :: [.zeroed new (b.userData + size)] ++ y := by simp [hl']
    have hdb : d ≠ b := by
      rintro rfl
      rw [htl] at hn
      exact (List.nodup_cons.mp (List.nodup_middle.mp hn)).1 hj
    refine sizeOf_around hc.ids hc'.ids h₁ h₂ rfl hstop ?_
    rw [hl, List.mem_append, List.mem_cons] at hd
    rw [List.mem_append]
    tauto
  rw [SizeOrdered, htl] at h
  obtain ⟨hs₁, hs₂, hs₁₂⟩ := List.pairwise_append.mp h
  obtain ⟨hbl₂, hs₂⟩ := List.pairwise_cons.mp hs₂
  have hkeep : ∀ {l : List BufId}, (∀ j ∈ l, j ∈ l₁ ++ l₂) →
      l.Pairwise (fun a b => alloc.sizeOf a ≤ alloc.sizeOf b) →
      l.Pairwise fun a b => alloc'.sizeOf a ≤ alloc'.sizeOf b := by
    intro l hl hp
    refine hp.imp_of_mem fun {a b} ha hb hab => ?_
    rw [hother a (hl a ha), hother b (hl b hb)]
    exact hab
  rw [SizeOrdered, htree, htl]
  refine List.pairwise_append.mpr ⟨hkeep (fun j hj => List.mem_append_left _ hj) hs₁,
    List.pairwise_cons.mpr ⟨fun j hj => ?_, hkeep (fun j hj => List.mem_append_right _ hj) hs₂⟩,
    fun i hi j hj => ?_⟩
  · rw [hb, hother j (List.mem_append_right _ hj)]
    exact (Nat.le_of_lt hlt).trans (hbl₂ j hj)
  · rw [hother i (List.mem_append_left _ hi)]
    rcases List.mem_cons.mp hj with rfl | hj'
    · rw [hb]
      exact Nat.le_of_lt (hbefore i hi)
    · rw [hother j (List.mem_append_right _ hj')]
      exact hs₁₂ i hi j hj

/-- The buffer found is split, and its rest inserted. -/
theorem SizeOrdered.splitBuffer (h : Inv alloc) (hs : SizeOrdered alloc)
    (hl : alloc.buffers = x ++ b :: y) (hf : b.free = true) (hnew : new ∉ alloc.buffers.map (·.id))
    (h8 : sizeofPtr ≤ size) (hmod : size % sizeofPtr = 0) (hfirst : FoundFirst alloc size b.id)
    (hsize : size < alloc.sizeBefore b y) (heq : splitBuffer rb alloc b.id new size = some alloc') :
    SizeOrdered alloc' := by
  obtain ⟨alloc₁, heq₁, hc', hl', -, -, -, hb, hbs, -⟩ := splitBuffer_spec rb h.toCore hl hf h.freeTree
    hnew h8 hmod hsize
  rw [heq] at heq₁
  cases heq₁
  have hids := h.ids
  rw [hl] at hids
  have hloc : locate b.id alloc.buffers = some (x, b, y) := by rw [hl]; exact locate_split hids
  have hadd : addSize b.userData size = b.userData + size := by
    obtain ⟨hsz, -, hle, -⟩ := h.toCore.size hl
    have := h.bound
    exact addSize_eq (by omega)
  simp only [Binder.splitBuffer, hloc, hadd, Option.bind_eq_bind, Option.bind_some] at heq
  -- the list is split, the tree is as before
  let alloc₀ : BinderAlloc := { alloc with
    buffers := x ++ b :: .zeroed new (b.userData + size) :: y }
  have hstop : alloc'.stop = alloc₀.stop := by
    show alloc'.buffer + alloc'.bufferSize = alloc.buffer + alloc.bufferSize
    rw [hb, hbs]
  have hc₀ : Core alloc₀ := by
    obtain ⟨ht, ha, hi, htx, hbd, hsa⟩ := hc'
    rw [hl'] at ht ha hi htx
    rw [hb, hstop] at ht
    rw [hstop] at hbd hsa
    exact ⟨ht, ha, hi, htx, hbd, hsa⟩
  have ht₀ : TreeIn true alloc₀ alloc₀.freeBuffers := fun id hid => by
    obtain ⟨d, hd, he, hdf⟩ := TreeIn.of_perm h.freeTree id hid
    refine ⟨d, ?_, he, hdf⟩
    rw [hl] at hd
    simp only [alloc₀, List.mem_append, List.mem_cons] at hd ⊢
    tauto
  have hsz : alloc.sizeOf b.id = alloc.sizeBefore b y := sizeOf_eq h.ids hl
  have hs₀ : SizeOrdered alloc₀ := hs.split h.toCore hc₀ (TreeIn.of_perm h.freeTree) h.nodup_free hl rfl
    rfl rfl hfirst (by omega)
  exact hs₀.insert hc₀.ids ht₀ heq

/-- `binder_alloc_new_buf_locked` keeps the order. -/
theorem SizeOrdered.newBuf {r : Except Errno BufId} (h : Inv alloc) (hs : SizeOrdered alloc)
    (hk : ∀ new ∈ kzalloc, new ∉ alloc.buffers.map (·.id))
    (heq : binderAllocNewBufLocked rb env kzalloc alloc dataSize offsetsSize extraBuffersSize isAsync =
      some (r, alloc')) : SizeOrdered alloc' := by
  unfold binderAllocNewBufLocked at heq
  split at heq
  · cases heq
    exact hs
  split at heq
  · cases heq
    exact hs
  rename_i n hreq
  split at heq
  · cases heq
    exact hs
  obtain ⟨best, hbest, hfound, -⟩ := bestFit_found h hs (max n sizeofPtr)
  obtain ⟨best', hbest', hfits⟩ := bestFit_spec (max n sizeofPtr) none h.toCore
    (TreeIn.of_perm h.freeTree) (by simp)
  rw [hbest] at hbest'
  cases hbest'
  simp only [hbest] at heq
  cases best with
  | none =>
    cases heq
    exact hs
  | some id =>
    obtain ⟨x, b, y, hl, rfl, hf, hsize⟩ := hfits id rfl
    have hids := h.ids
    rw [hl] at hids
    have hloc : locate b.id alloc.buffers = some (x, b, y) := by rw [hl]; exact locate_split hids
    have hbs := h.toCore.bufferSize hl
    have hsz : alloc.sizeOf b.id = alloc.sizeBefore b y := by rw [BinderAlloc.sizeOf, hbs]; rfl
    simp only [hloc, hbs, Option.bind_eq_bind, Option.bind_some] at heq
    split at heq
    · cases heq
      exact hs
    rename_i pages _
    have hp : Inv { alloc with pages } := h.pages pages
    have ht : TreeIn true { alloc with pages } alloc.freeBuffers := TreeIn.of_perm hp.freeTree
    split at heq
    · rename_i hne
      cases kzalloc with
      | none =>
        cases heq
        exact hs
      | some new =>
        obtain ⟨alloc₁, heq₁, heq⟩ := Option.bind_eq_some_iff.mp heq
        obtain ⟨alloc₂, heq₂, heq⟩ := Option.bind_eq_some_iff.mp heq
        cases heq
        obtain ⟨hcont, hmod⟩ := requestSize_ok hreq
        have hmod' : max n sizeofPtr % sizeofPtr = 0 := by
          rcases Nat.le_total n sizeofPtr with hle | hle
          · rw [Nat.max_eq_right hle]
            exact Nat.mod_self _
          · rw [Nat.max_eq_left hle]
            exact hmod
        have hlt : max n sizeofPtr < alloc.sizeBefore b y := by omega
        have hs₁ : SizeOrdered alloc₁ := SizeOrdered.splitBuffer hp hs hl hf (hk new rfl)
          (Nat.le_max_right _ _) hmod' (hfound b.id rfl) hlt heq₁
        obtain ⟨alloc₃, heq₃, hc₁, hl₁, hft₁, hat₁, -⟩ := splitBuffer_spec rb hp.toCore hl hf hp.freeTree
          (hk new rfl) (Nat.le_max_right _ _) hmod' hlt
        rw [heq₁] at heq₃
        cases heq₃
        refine hs₁.take hc₁ hl₁ hf hft₁ ?_ ?_ heq₂
        · rw [hat₁, hl₁, idsOf_append, idsOf_cons_ne (by simp [hf]),
            idsOf_cons_ne (by simp [BinderBuffer.zeroed])]
          have hat := h.allocTree
          rwa [hl, idsOf_append, idsOf_cons_ne (by simp [hf])] at hat
        · rw [endOf_cons, hcont]
          exact Nat.le_refl _
    · rename_i heqs
      obtain ⟨alloc₂, heq₂, heq⟩ := Option.bind_eq_some_iff.mp heq
      cases heq
      refine SizeOrdered.take hp.toCore hs hl hf hp.freeTree hp.allocTree ?_ heq₂
      obtain ⟨hcont, -⟩ := requestSize_ok hreq
      obtain ⟨hb, hmin, -, -⟩ := h.toCore.size hl
      have hlen := b.ptr_le_minLen
      have heqs' : alloc.sizeBefore b y = max n sizeofPtr := not_not.mp heqs
      have hmin' : (b.taken dataSize offsetsSize extraBuffersSize isAsync).minLen = max n sizeofPtr := by
        rw [hcont]
        rfl
      show b.userData + _ ≤ endOf BinderBuffer.userData alloc.stop y
      omega

/-! ## Freeing -/

/-- A buffer behind a free one leaves the list: all others but the free one keep their sizes. -/
theorem SizeOrdered.delete (hids : (alloc.buffers.map (·.id)).Nodup)
    (hl : alloc.buffers = x ++ a :: c :: y) (hl' : alloc'.buffers = x ++ a :: y)
    (hstop : alloc'.stop = alloc.stop) (h : SizeOrdered alloc)
    (hsub : alloc'.freeBuffers.toList.Sublist alloc.freeBuffers.toList)
    (hin : ∀ id ∈ alloc'.freeBuffers.toList, id ∈ (x ++ y).map (·.id)) : SizeOrdered alloc' := by
  have hids' : (alloc'.buffers.map (·.id)).Nodup := by
    refine hids.sublist (List.Sublist.map _ ?_)
    rw [hl, hl']
    exact (List.Sublist.refl x).append ((List.sublist_cons_self c y).cons_cons a)
  have h₁ : alloc.buffers = x ++ a :: [c] ++ y := by simp [hl]
  have h₂ : alloc'.buffers = x ++ a :: [] ++ y := by simp [hl']
  refine h.of_sublist hsub fun id hid => ?_
  obtain ⟨d, hd, rfl⟩ := List.mem_map.mp (hin id hid)
  exact sizeOf_around hids hids' h₁ h₂ rfl hstop hd

theorem SizeOrdered.mergeNext (hids : (alloc.buffers.map (·.id)).Nodup)
    (hl : alloc.buffers = x ++ b :: y) (hf : b.free = true)
    (hft : alloc.freeBuffers.toList.Perm (idsOf true (x ++ y))) (h : SizeOrdered alloc)
    (heq : mergeNext rb alloc y = some alloc') : SizeOrdered alloc' := by
  cases y with
  | nil =>
    cases heq
    exact h
  | cons n z =>
    simp only [Binder.mergeNext] at heq
    by_cases hn : n.free = true
    swap
    · rw [if_neg hn] at heq
      cases heq
      exact h
    rw [if_pos hn] at heq
    let alloc₁ : BinderAlloc := { alloc with freeBuffers := rb.erase alloc.freeBuffers n.id }
    cases heq.symm.trans
      (binderDeleteFreeBuffer_spec (show (alloc₁.buffers.map (·.id)).Nodup from hids) hl hf)
    rw [idsOf_append, idsOf_cons_eq hn] at hft
    refine h.delete hids hl rfl rfl ?_ fun id hid => ?_
    · show (rb.erase alloc.freeBuffers n.id).toList.Sublist _
      rw [rb.toList_erase]
      exact List.erase_sublist
    · have herase : (rb.erase alloc.freeBuffers n.id).toList.Perm (idsOf true x ++ idsOf true z) :=
        perm_erase hft
      have hmem := herase.subset hid
      rw [← idsOf_append] at hmem
      obtain ⟨d, hd, -, he⟩ := mem_idsOf.mp hmem
      exact List.mem_map.mpr ⟨d, hd, he⟩

theorem SizeOrdered.mergePrev (hfr : Freeing alloc x b y) (h : SizeOrdered alloc)
    (heq : mergePrev rb alloc b.id x = some alloc') : SizeOrdered alloc' := by
  have hl := hfr.list
  have hin : TreeIn true alloc alloc.freeBuffers := fun id hid => by
    obtain ⟨d, hd, hdf, he⟩ := mem_idsOf.mp (hfr.freeTree.subset hid)
    refine ⟨d, ?_, he, hdf⟩
    rw [hl]
    simp only [List.mem_append, List.mem_cons] at hd ⊢
    tauto
  rcases List.eq_nil_or_concat' x with rfl | ⟨x', p, rfl⟩
  · exact h.insert hfr.ids hin heq
  simp only [Binder.mergePrev, List.getLast?_concat] at heq
  by_cases hp : p.free = true
  swap
  · rw [if_neg hp] at heq
    exact h.insert hfr.ids hin heq
  have hl₁ : alloc.buffers = x' ++ p :: b :: y := by simp [hl]
  rw [if_pos hp, binderDeleteFreeBuffer_spec hfr.ids hl₁ hp] at heq
  have hft := hfr.freeTree
  simp only [List.append_assoc, List.singleton_append, idsOf_append, idsOf_cons_eq hp] at hft
  -- `p` has grown, and is out of the tree
  let alloc₂ : BinderAlloc := { alloc with
    buffers := x' ++ p :: y, freeBuffers := rb.erase alloc.freeBuffers p.id }
  have hmem : ∀ id ∈ alloc₂.freeBuffers.toList, ∃ d ∈ x' ++ y, d.free = true ∧ d.id = id := fun id hid => by
    have herase : (rb.erase alloc.freeBuffers p.id).toList.Perm (idsOf true x' ++ idsOf true y) :=
      perm_erase hft
    have hm := herase.subset hid
    rw [← idsOf_append] at hm
    exact mem_idsOf.mp hm
  have hc₂ : Core alloc₂ := hfr.toCore.delete hl₁ rfl rfl rfl
  have hs₂ : SizeOrdered alloc₂ := by
    refine h.delete hfr.ids hl₁ rfl rfl ?_ fun id hid => ?_
    · show (rb.erase alloc.freeBuffers p.id).toList.Sublist _
      rw [rb.toList_erase]
      exact List.erase_sublist
    · obtain ⟨d, hd, -, he⟩ := hmem id hid
      exact List.mem_map.mpr ⟨d, hd, he⟩
  refine hs₂.insert hc₂.ids (fun id hid => ?_) heq
  obtain ⟨d, hd, hdf, he⟩ := hmem id hid
  refine ⟨d, ?_, he, hdf⟩
  simp only [alloc₂, List.mem_append, List.mem_cons] at hd ⊢
  tauto

/-- `binder_free_buf_locked` keeps the order. -/
theorem SizeOrdered.freeBuf (h : Inv alloc) (hs : SizeOrdered alloc) (hl : alloc.buffers = x ++ b :: y)
    (hf : b.free = false) (heq : binderFreeBufLocked rb alloc b.id = some alloc') :
    SizeOrdered alloc' := by
  have hids := h.ids
  rw [hl] at hids
  have hloc : locate b.id alloc.buffers = some (x, b, y) := by rw [hl]; exact locate_split hids
  have hna := h.noAdj
  rw [hl] at hna
  obtain ⟨hx, hby, -⟩ := List.isChain_append.mp hna
  simp only [binderFreeBufLocked, hloc, h.toCore.bufferSize hl, Option.bind_eq_bind,
    Option.bind_some] at heq
  obtain ⟨-, heq⟩ := guard_bind heq
  obtain ⟨-, heq⟩ := guard_bind heq
  obtain ⟨htx, heq⟩ := guard_bind heq
  obtain ⟨-, heq⟩ := guard_bind heq
  obtain ⟨-, heq⟩ := guard_bind heq
  obtain ⟨alloc₂, heq₂, heq⟩ := Option.bind_eq_some_iff.mp heq
  -- marked free, out of the tree of allocated buffers
  let b₁ : BinderBuffer := { b with free := true }
  let alloc₁ : BinderAlloc := { alloc with
    freeAsyncSpace := freedAsyncSpace alloc b
    pages := binderFreePageRange alloc (pageAlign b.userData)
      (pageMask (addSize b.userData (alloc.sizeBefore b y)))
    allocatedBuffers := rb.erase alloc.allocatedBuffers b.id
    buffers := x ++ b₁ :: y }
  have hfit := (h.toCore.size hl).2.1
  have hc₁ : Core alloc₁ := by
    refine h.toCore.replace hl (show b₁.id = b.id from rfl) rfl (fun _ => by simpa using htx) ?_ rfl rfl rfl
    have := b.ptr_le_minLen
    have : b₁.minLen = sizeofPtr := rfl
    omega
  have hft := h.freeTree
  have hat := h.allocTree
  rw [hl, idsOf_append, idsOf_cons_ne (by simp [hf]), ← idsOf_append] at hft
  rw [hl, idsOf_append, idsOf_cons_eq hf] at hat
  have hs₁ : SizeOrdered alloc₁ := by
    refine hs.of_sublist (.refl _) fun id hid => ?_
    obtain ⟨d, hd, rfl, -⟩ := TreeIn.of_perm h.freeTree id hid
    exact sizeOf_replace h.ids hc₁.ids hl rfl rfl rfl rfl hd
  have hs₂ : SizeOrdered alloc₂ := hs₁.mergeNext hc₁.ids rfl rfl hft heq₂
  obtain ⟨alloc₃, y', heq₃, hfr, -⟩ := mergeNext_spec rb hc₁ rfl rfl hft
    (by rw [idsOf_append]; exact perm_erase hat) hx (List.isChain_cons.mp hby).2
  cases heq₂.symm.trans heq₃
  exact hs₂.mergePrev hfr heq

/-! ## Runs -/

theorem SizeOrdered.init {vma : Vma}
    (h : binderAllocMmapHandler rb binderAllocInit vma true (some id) = some (none, alloc)) :
    SizeOrdered alloc := by
  simp only [binderAllocMmapHandler, binderAllocInit, ne_eq, not_true_eq_false, if_false,
    Bool.not_true, Bool.false_eq_true, Option.bind_eq_bind, Option.bind_eq_some_iff] at h
  obtain ⟨alloc₁, hins, h⟩ := h
  cases h
  have hs : SizeOrdered alloc₁ := by
    refine SizeOrdered.insert ?_ ?_ ?_ hins
    · simp
    · exact fun _ h => by cases h
    · exact List.Pairwise.nil
  exact hs

theorem allocSys_sizeOrdered (h : (allocSys rb).Reach alloc) : SizeOrdered alloc := by
  refine (Sys.Reach.inv (I := fun alloc => (Inv alloc ∧ Idle alloc) ∧ SizeOrdered alloc) ?_ ?_ h).2
  · rintro alloc ⟨vma, id, hv, heq⟩
    exact ⟨allocSys_inv (.init ⟨vma, id, hv, heq⟩), .init heq⟩
  · rintro alloc op alloc' ⟨⟨hinv, hidle⟩, hs⟩ ⟨hv, r, heq⟩
    obtain ⟨r', alloc₁, heq₁, hinv₁, hidle₁, -⟩ := hinv.exec hidle rb hv
    rw [heq] at heq₁
    cases heq₁
    refine ⟨⟨hinv₁, hidle₁⟩, ?_⟩
    cases op with
    | newBuf env kzalloc dataSize offsetsSize extraBuffersSize isAsync =>
      obtain ⟨⟨r, alloc₂⟩, hcall, heq⟩ := Option.bind_eq_some_iff.mp heq
      cases r <;> cases heq <;> exact hs.newBuf hinv hv.1 hcall
    | freeBuf id =>
      obtain ⟨alloc₂, hcall, heq⟩ := Option.bind_eq_some_iff.mp heq
      cases heq
      obtain ⟨b, hb, rfl, hf⟩ := hv
      obtain ⟨x, y, hl⟩ := List.append_of_mem hb
      exact hs.freeBuf hinv hl hf hcall
    | vmaClose =>
      cases heq
      exact hs

/-- No kernel function that `binder_update_page_range` calls fails. -/
structure PageEnv.Succeeds (env : PageEnv) : Prop where
  mmgetNotZero : env.mmgetNotZero = true
  allocPage : ∀ i, env.allocPage i = true
  vmInsertPage : ∀ i, env.vmInsertPage i = true

theorem mapPages_succeeds {vma : Bool} {buffer start : Nat} (he : env.Succeeds) {addrs : List Nat}
    {pages : Pages} (h : vma = true ∨
      ∀ addr ∈ addrs, (pages.page (pageIndex buffer addr)).pagePtr = true) :
    (mapPages env vma buffer start addrs pages).1 = true := by
  induction addrs generalizing pages with
  | nil => rfl
  | cons addr rest ih =>
    simp only [mapPages]
    split
    · have hsame : pages.set (pageIndex buffer addr)
          (compatListLruDel (pages.page (pageIndex buffer addr))).2 = pages := by
        simp [Pages.set, compatListLruDel]
      rw [hsame]
      exact ih (h.imp_right fun h a ha => h a (List.mem_cons_of_mem _ ha))
    · rename_i hp
      have hvma : vma = true := h.resolve_right fun h => hp (h addr List.mem_cons_self)
      rw [if_neg (by simp [hvma]), if_neg (by simp [he.allocPage]), if_neg (by simp [he.vmInsertPage])]
      exact ih (.inl hvma)

theorem updatePageRange_succeeds (he : env.Succeeds) (hvma : alloc.vma = true) (start stop : Nat) :
    (binderUpdatePageRange env alloc start stop).1 = none := by
  unfold binderUpdatePageRange
  split
  · rfl
  simp only [he.mmgetNotZero, hvma, Bool.and_true]
  generalize hneed : ((pageAddrs start stop).any fun addr =>
    !(alloc.pages.page (pageIndex alloc.buffer addr)).pagePtr) = need
  rw [if_neg (by cases need <;> simp)]
  have hok : (mapPages env need alloc.buffer start (pageAddrs start stop) alloc.pages).1 = true := by
    refine mapPages_succeeds he ?_
    cases need with
    | true => exact .inl rfl
    | false => exact .inr fun addr ha => by simpa using List.any_eq_false.mp hneed addr ha
  split
  · rfl
  · rename_i hfail
    rw [hfail] at hok
    cases hok

theorem updatePageRange_ne_ENOSPC {start stop : Nat} {e : Errno} {pages : Pages}
    (h : binderUpdatePageRange env alloc start stop = (some e, pages)) : e ≠ .ENOSPC := by
  unfold binderUpdatePageRange at h
  split at h
  · cases h
  dsimp only at h
  split at h
  · cases h
    exact nofun
  split at h
  · cases h
  · split at h <;> cases h <;> exact nofun

/-- The checks of `binder_alloc_new_buf_locked` before the search pass; `size` is the request with the
padding of an empty one. -/
structure Admitted (alloc : BinderAlloc) (dataSize offsetsSize extraBuffersSize : Nat) (isAsync : Bool)
    (size : Nat) : Prop where
  vma : alloc.vma = true
  request : ∃ n, requestSize dataSize offsetsSize extraBuffersSize = .ok n ∧ size = max n sizeofPtr ∧
    (isAsync = true → addSize n sizeofBinderBuffer ≤ alloc.freeAsyncSpace)

/-- The call after its checks. -/
theorem newBuf_search {r : Except Errno BufId} {best : Option BufId} (h : Inv alloc)
    (hadm : Admitted alloc dataSize offsetsSize extraBuffersSize isAsync size)
    (hbest : bestFit alloc size alloc.freeBuffers none = some best)
    (heq : binderAllocNewBufLocked rb env kzalloc alloc dataSize offsetsSize extraBuffersSize isAsync =
      some (r, alloc')) :
    (best = none → r = .error .ENOSPC) ∧
      ∀ id, best = some id → (r = .ok id ∨ ∃ e, r = .error e ∧ e ≠ .ENOSPC) ∧
        (env.Succeeds → kzalloc.isSome → r = .ok id) := by
  obtain ⟨n, hreq, rfl, hspace⟩ := hadm.request
  unfold binderAllocNewBufLocked at heq
  have hasync : ¬ (isAsync && decide (alloc.freeAsyncSpace < addSize n sizeofBinderBuffer)) = true := by
    intro ha
    rw [Bool.and_eq_true, decide_eq_true_eq] at ha
    have := hspace ha.1
    omega
  simp only [hadm.vma, Bool.not_true, Bool.false_eq_true, if_false, hreq, if_neg hasync, hbest] at heq
  cases best with
  | none =>
    cases heq
    exact ⟨fun _ => rfl, nofun⟩
  | some id =>
    refine ⟨nofun, fun id' hid => ?_⟩
    cases hid
    obtain ⟨best', hbest', hfits⟩ := bestFit_spec (max n sizeofPtr) none h.toCore
      (TreeIn.of_perm h.freeTree) (by simp)
    cases hbest.symm.trans hbest'
    obtain ⟨x, b, y, hl, rfl, hf, hsize⟩ := hfits id rfl
    have hids := h.ids
    rw [hl] at hids
    have hloc : locate b.id alloc.buffers = some (x, b, y) := by rw [hl]; exact locate_split hids
    simp only [hloc, h.toCore.bufferSize hl, Option.bind_eq_bind, Option.bind_some] at heq
    split at heq
    · rename_i e pages hup
      cases heq
      refine ⟨.inr ⟨e, rfl, updatePageRange_ne_ENOSPC hup⟩, fun he => ?_⟩
      have hok := updatePageRange_succeeds he hadm.vma (pageAlign b.userData)
        (min (pageAlign (addSize b.userData (max n sizeofPtr)))
          (pageMask (addSize b.userData (alloc.sizeBefore b y))))
      rw [hup] at hok
      cases hok
    split at heq
    · cases kzalloc with
      | none =>
        cases heq
        exact ⟨.inr ⟨_, rfl, nofun⟩, nofun⟩
      | some new =>
        obtain ⟨_, -, heq⟩ := Option.bind_eq_some_iff.mp heq
        obtain ⟨_, -, heq⟩ := Option.bind_eq_some_iff.mp heq
        cases heq
        exact ⟨.inl rfl, fun _ _ => rfl⟩
    · obtain ⟨_, -, heq⟩ := Option.bind_eq_some_iff.mp heq
      cases heq
      exact ⟨.inl rfl, fun _ _ => rfl⟩

/-- A free buffer that is large enough, and none of these is smaller. -/
def IsBestFit (alloc : BinderAlloc) (size : Nat) (id : BufId) : Prop :=
  (∃ b ∈ alloc.buffers, b.id = id ∧ b.free = true) ∧ size ≤ alloc.sizeOf id ∧
    ∀ c ∈ alloc.buffers, c.free = true → size ≤ alloc.sizeOf c.id → alloc.sizeOf id ≤ alloc.sizeOf c.id

/-- **Best fit.** In every state of every run the free tree has exactly the free buffers, ordered by
their sizes. A request that passes the checks gets a smallest free buffer that is large enough if pages
and struct can be allocated, and fails with `-ENOSPC` if and only if there is no such buffer. -/
theorem allocSys_bestFit (h : (allocSys rb).Reach alloc) :
    alloc.freeBuffers.toList.Perm (idsOf true alloc.buffers) ∧ SizeOrdered alloc ∧
    ∀ env kzalloc dataSize offsetsSize extraBuffersSize isAsync size,
      (∀ new ∈ kzalloc, new ∉ alloc.buffers.map (·.id)) →
      Admitted alloc dataSize offsetsSize extraBuffersSize isAsync size →
      ∃ r alloc', binderAllocNewBufLocked rb env kzalloc alloc dataSize offsetsSize extraBuffersSize
          isAsync = some (r, alloc') ∧
        (r = .error .ENOSPC ↔ ∀ b ∈ alloc.buffers, b.free = true → alloc.sizeOf b.id < size) ∧
        (∀ id, r = .ok id → IsBestFit alloc size id) ∧
        (env.Succeeds → kzalloc.isSome → (∃ b ∈ alloc.buffers, b.free = true ∧ size ≤ alloc.sizeOf b.id) →
          ∃ id, r = .ok id) := by
  have hinv := (allocSys_inv h).1
  have hs := allocSys_sizeOrdered h
  refine ⟨hinv.freeTree, hs, ?_⟩
  intro env kzalloc dataSize offsetsSize extraBuffersSize isAsync size hk hadm
  have hspec : NewBufOk alloc dataSize offsetsSize extraBuffersSize isAsync _ :=
    binderAllocNewBufLocked_spec rb env kzalloc hinv hk
  obtain ⟨r, alloc', heq, -⟩ := hspec
  refine ⟨r, alloc', heq, ?_⟩
  have hmem : ∀ b ∈ alloc.buffers, b.free = true → b.id ∈ alloc.freeBuffers.toList := fun b hb hf =>
    hinv.freeTree.symm.subset (mem_idsOf.mpr ⟨b, hb, hf, rfl⟩)
  obtain ⟨best, hbest, hfound, hnone⟩ := bestFit_found hinv hs size
  obtain ⟨hr, hr'⟩ := newBuf_search hinv hadm hbest heq
  cases best with
  | none =>
    have hno := hnone rfl
    refine ⟨⟨fun _ b hb hf => hno b.id (hmem b hb hf), fun _ => hr rfl⟩, fun id hid => ?_, ?_⟩
    · rw [hr rfl] at hid
      cases hid
    · rintro - - ⟨b, hb, hf, hle⟩
      have := hno b.id (hmem b hb hf)
      omega
  | some id =>
    obtain ⟨hres, hok⟩ := hr' id rfl
    have hfirst := hfound id rfl
    obtain ⟨hle, hleast⟩ := hfirst.least hs
    obtain ⟨b, hb, he, hf⟩ : ∃ b ∈ alloc.buffers, b.id = id ∧ b.free = true := by
      obtain ⟨l₁, l₂, hl, -⟩ := hfirst
      exact TreeIn.of_perm hinv.freeTree id (by rw [hl]; simp)
    refine ⟨⟨fun herr => ?_, fun hall => ?_⟩, fun id' hid => ?_, fun he hk _ => ⟨id, hok he hk⟩⟩
    · rcases hres with hres | ⟨e, hres, hne⟩
      · rw [hres] at herr
        cases herr
      · rw [hres] at herr
        cases herr
        exact absurd rfl hne
    · have := hall b hb hf
      rw [he] at this
      omega
    · rcases hres with hres | ⟨e, hres, -⟩
      · rw [hres] at hid
        cases hid
        exact ⟨⟨b, hb, he, hf⟩, hle, fun c hc hcf => hleast c.id (hmem c hc hcf)⟩
      · rw [hres] at hid
        cases hid

/-- With a free buffer of 1000 bytes and one of 5184: a request that fits in both gets the smaller one, one
that does not gets the other, and a larger one fails. -/
theorem allocSys_bestFit_churned : churned.freeBuffers.toList = [1, 3] ∧ SizeOrdered churned ∧
    (∃ alloc', binderAllocNewBufLocked (.unbalanced BufId) plenty (some 4) churned 100 0 0 false =
      some (.ok 1, alloc') ∧ IsBestFit churned 104 1) ∧
    (∃ alloc', binderAllocNewBufLocked (.unbalanced BufId) plenty (some 4) churned 2000 0 0 false =
      some (.ok 3, alloc') ∧ IsBestFit churned 2000 3) ∧
    ∃ alloc', binderAllocNewBufLocked (.unbalanced BufId) plenty (some 4) churned 5200 0 0 false =
      some (.error .ENOSPC, alloc') := by
  obtain ⟨-, hs, hcall⟩ := allocSys_bestFit churned_reach
  have hk : ∀ new ∈ some 4, new ∉ churned.buffers.map (·.id) := by decide
  obtain ⟨r, alloc', heq, -, hbest, -⟩ := hcall plenty (some 4) 100 0 0 false 104 hk
    ⟨rfl, 104, rfl, rfl, by simp⟩
  have hr : r = .ok 1 := (Prod.mk.inj (Option.some.inj (heq.symm.trans rfl))).1
  obtain ⟨r', alloc'', heq', -, hbest', -⟩ := hcall plenty (some 4) 2000 0 0 false 2000 hk
    ⟨rfl, 2000, rfl, rfl, by simp⟩
  have hr' : r' = .ok 3 := (Prod.mk.inj (Option.some.inj (heq'.symm.trans rfl))).1
  obtain ⟨r'', alloc₃, heq'', hfull, -⟩ := hcall plenty (some 4) 5200 0 0 false 5200 hk
    ⟨rfl, 5200, rfl, rfl, by simp⟩
  rw [hfull.mpr (by decide)] at heq''
  exact ⟨rfl, hs, ⟨alloc', hr ▸ heq, hbest 1 hr⟩, ⟨alloc'', hr' ▸ heq', hbest' 3 hr'⟩, alloc₃, heq''⟩

end Redroid.Binder
