import Redroid.Binder.AllocRun

/-!
# The pages behind the buffers

`binder_alloc_new_buf_locked` populates only the pages that begin inside the buffer and end inside
the free buffer that it is taken from: the others are shared with a neighbour, and populated already.

* `inUse`: the page intersects an allocated buffer. `Backed`: every such page is populated.
* `checkBuffer`, `binderAllocGetPage`, `copyAccesses`: how the driver accesses a buffer.
* `allocSys_backed`: in every state of every run all bytes of the allocated buffers are backed, and
  no access that `check_buffer` accepts finds no page.
* `PagesOk`: what the LRU is for. `compat_list_lru_add` and `compat_list_lru_del` do nothing, so it
  holds as long as no page falls out of use (`allocSys_pages`).
-/

namespace Redroid.Binder

/-- The page with index `i` intersects the addresses from `b.userData` to `stop`. -/
def overlaps (buffer i : Nat) (span : BinderBuffer × Nat) : Bool :=
  decide (buffer + i * pageSize < span.2) && decide (span.1.userData < buffer + (i + 1) * pageSize)

/-- The page intersects an allocated buffer. -/
def inUse (alloc : BinderAlloc) (i : Nat) : Bool :=
  (usedSpans alloc.stop alloc.buffers).any (overlaps alloc.buffer i)

/-- `check_buffer`. -/
def checkBuffer (alloc : BinderAlloc) (id : BufId) (offset bytes : Nat) : Option Bool := do
  let (_, buffer, _) ← locate id alloc.buffers
  let bufferSize ← alloc.binderAllocBufferSize id
  some (decide (bytes ≤ bufferSize) && decide (offset ≤ subSize bufferSize bytes) &&
    decide (offset % 4 = 0) && !buffer.free && (!buffer.allowUserFree || buffer.transaction.isNone))

/-- `binder_alloc_get_page`: the index of the page, the offset in it, and whether there is one. -/
def binderAllocGetPage (alloc : BinderAlloc) (id : BufId) (bufferOffset : Nat) :
    Option (Nat × Nat × Bool) := do
  let (_, buffer, _) ← locate id alloc.buffers
  let bufferSpaceOffset := addSize bufferOffset (subSize buffer.userData alloc.buffer)
  let index := bufferSpaceOffset / pageSize
  some (index, bufferSpaceOffset % pageSize, (alloc.pages.page index).pagePtr)

/-- The accesses of `binder_alloc_do_buffer_copy` and `binder_alloc_copy_user_to_buffer`: the page,
the offset in it, and the number of bytes. -/
def copyAccesses (alloc : BinderAlloc) (id : BufId) : Nat → Nat → Nat →
    Option (List ((Nat × Nat × Bool) × Nat))
  | 0, _, _ => some []
  | fuel + 1, offset, bytes =>
    if bytes = 0 then some []
    else do
      let page ← binderAllocGetPage alloc id offset
      let size := min bytes (pageSize - page.2.1)
      let rest ← copyAccesses alloc id fuel (addSize offset size) (bytes - size)
      some ((page, size) :: rest)

/-- The counters of `binder_alloc_print_pages`: active, lru and free. -/
def binderAllocPrintPages (alloc : BinderAlloc) : Nat × Nat × Nat :=
  if alloc.vma then
    let pages := (List.range (alloc.bufferSize / pageSize)).map alloc.pages.page
    (pages.countP fun p => p.pagePtr && !p.lru, pages.countP fun p => p.pagePtr && p.lru,
      pages.countP fun p => !p.pagePtr)
  else (0, 0, 0)

/-- `binder_alloc_free_page`. The arguments: whether `mutex_trylock`, `mmget_not_zero` and
`mmap_read_trylock` succeed. -/
def binderAllocFreePage (trylock mmget readTrylock : Bool) (pages : Pages) (index : Nat) : Pages :=
  if trylock && (pages.page index).pagePtr && mmget && readTrylock then
    pages.set index ⟨false, false⟩
  else pages

/-- `list_lru_walk` over the pages of one allocator, undisturbed. -/
def lruWalk (alloc : BinderAlloc) : Pages :=
  (List.range (alloc.bufferSize / pageSize)).foldl (fun pages i =>
    if (pages.page i).lru then binderAllocFreePage true true true pages i else pages) alloc.pages

/-- The pages that `binder_alloc_new_buf_locked` populates, if it finds a buffer: the addresses of
the first one and of their end, and whether it needs a new struct. -/
def pageRange (alloc : BinderAlloc) (dataSize offsetsSize extraBuffersSize : Nat) (isAsync : Bool) :
    Option (Nat × Nat × Bool) :=
  if !alloc.vma then none
  else match requestSize dataSize offsetsSize extraBuffersSize with
  | .error _ => none
  | .ok size =>
    if isAsync && decide (alloc.freeAsyncSpace < addSize size sizeofBinderBuffer) then none
    else do
      let size := max size sizeofPtr
      let id ← (bestFit alloc size alloc.freeBuffers none).join
      let (_, buffer, _) ← locate id alloc.buffers
      let bufferSize ← alloc.binderAllocBufferSize id
      some (pageAlign buffer.userData, min (pageAlign (addSize buffer.userData size))
        (pageMask (addSize buffer.userData bufferSize)), decide (bufferSize ≠ size))

/-! ## Populating pages -/

section Map

variable {env : PageEnv} {vma : Bool} {buffer start stop a i : Nat} {addrs : List Nat}
  {pages pages' : Pages} {ok : Bool}

theorem pages_set_page {page : BinderLruPage} (j : Nat) :
    (pages.set i page).page j = if j = i then page else pages.page j := by
  simp [Pages.set, Function.update_apply]

/-- What populating pages can do: pages come, none go, and none is put on the LRU. -/
structure Grows (pages pages' : Pages) : Prop where
  mono : ∀ i, (pages.page i).pagePtr = true → (pages'.page i).pagePtr = true
  lru : ∀ i, (pages.page i).lru = false → (pages'.page i).lru = false

theorem Grows.refl (pages : Pages) : Grows pages pages := ⟨fun _ h => h, fun _ h => h⟩

theorem Grows.set {ptr : Bool} (h : (pages.page i).pagePtr = true → ptr = true) :
    Grows pages (pages.set i ⟨ptr, false⟩) := by
  constructor <;> intro j hj <;> rw [pages_set_page] <;> split
  · next he => exact h (he ▸ hj)
  · exact hj
  · rfl
  · exact hj

/-- The kernel gives a page with this index, and maps it. -/
def PageEnv.gives (env : PageEnv) (i : Nat) : Bool := env.allocPage i && env.vmInsertPage i

/-- The first page of the loop, and what follows. -/
theorem mapPages_cons {addr : Nat} {rest : List Nat} (hi : pageIndex buffer addr = i) :
    mapPages env vma buffer start (addr :: rest) pages =
      if (pages.page i).pagePtr then mapPages env vma buffer start rest pages
      else if vma && env.gives i then
        mapPages env vma buffer start rest
          { pages.set i ⟨true, false⟩ with high := max pages.high (i + 1) }
      else (false, if vma && env.allocPage i then pages.set i ⟨false, false⟩ else pages) := by
  subst hi
  have hsame : pages.set (pageIndex buffer addr)
      (compatListLruDel (pages.page (pageIndex buffer addr))).2 = pages := by
    simp [Pages.set, compatListLruDel]
  simp only [mapPages, freeRange_eq, hsame]
  split
  · rfl
  cases vma
  · simp
  cases halloc : env.allocPage (pageIndex buffer addr) with
  | false => simp [PageEnv.gives, halloc]
  | true =>
    cases hins : env.vmInsertPage (pageIndex buffer addr) <;>
      simp [PageEnv.gives, halloc, hins, Pages.set]

theorem mapPages_grows (h : mapPages env vma buffer start addrs pages = (ok, pages')) :
    Grows pages pages' ∧
      (ok = true → ∀ a ∈ addrs, (pages'.page (pageIndex buffer a)).pagePtr = true) := by
  induction addrs generalizing pages with
  | nil =>
    cases h
    exact ⟨.refl _, fun _ a ha => by cases ha⟩
  | cons addr rest ih =>
    rw [mapPages_cons rfl] at h
    by_cases hptr : (pages.page (pageIndex buffer addr)).pagePtr
    · rw [if_pos hptr] at h
      obtain ⟨hgrows, hall⟩ := ih h
      refine ⟨hgrows, fun hok a ha => ?_⟩
      rcases List.mem_cons.mp ha with rfl | ha
      · exact hgrows.mono _ hptr
      · exact hall hok a ha
    · rw [if_neg hptr] at h
      split at h
      · obtain ⟨hgrows, hall⟩ := ih h
        have hset : Grows pages (pages.set (pageIndex buffer addr) ⟨true, false⟩) := .set fun _ => rfl
        refine ⟨⟨fun i hi => hgrows.mono i (hset.mono i hi), fun i hi => hgrows.lru i (hset.lru i hi)⟩,
          fun hok a ha => ?_⟩
        rcases List.mem_cons.mp ha with rfl | ha
        · exact hgrows.mono _ (by simp [Pages.set])
        · exact hall hok a ha
      · cases h
        refine ⟨?_, fun h => by cases h⟩
        split
        · exact .set fun hp => absurd hp hptr
        · exact .refl _

/-- Only the pages of the loop change. -/
theorem mapPages_frame (h : mapPages env vma buffer start addrs pages = (ok, pages'))
    (hi : ∀ a ∈ addrs, pageIndex buffer a ≠ i) : pages'.page i = pages.page i := by
  induction addrs generalizing pages with
  | nil =>
    cases h
    rfl
  | cons addr rest ih =>
    have hne : i ≠ pageIndex buffer addr := (hi addr List.mem_cons_self).symm
    have hrest : ∀ a ∈ rest, pageIndex buffer a ≠ i := fun a ha => hi a (List.mem_cons_of_mem _ ha)
    rw [mapPages_cons rfl] at h
    split at h
    · exact ih h hrest
    split at h
    · rw [ih h hrest]
      exact (pages_set_page i).trans (if_neg hne)
    · cases h
      split
      · exact (pages_set_page i).trans (if_neg hne)
      · rfl

/-- The loop succeeds if the kernel gives all pages that are missing. -/
theorem mapPages_ok (h : mapPages env true buffer start addrs pages = (ok, pages')) :
    ok = true ↔ ∀ a ∈ addrs, (pages.page (pageIndex buffer a)).pagePtr = true ∨
      env.gives (pageIndex buffer a) = true := by
  induction addrs generalizing pages with
  | nil =>
    cases h
    simp
  | cons addr rest ih =>
    rw [mapPages_cons rfl] at h
    rw [List.forall_mem_cons]
    split at h
    · next hptr => rw [ih h, hptr]; simp
    · next hptr =>
      split at h
      · next hgives =>
        rw [Bool.true_and] at hgives
        rw [ih h, hgives]
        simp only [or_true, true_and]
        refine forall₂_congr fun a _ => ?_
        have hpage : ((pages.set (pageIndex buffer addr) ⟨true, false⟩).page
            (pageIndex buffer a)) = if pageIndex buffer a = pageIndex buffer addr then ⟨true, false⟩
            else pages.page (pageIndex buffer a) := pages_set_page _
        rw [hpage]
        split
        · next he => simp [he, hgives]
        · rfl
      · next hgives =>
        cases h
        simp only [Bool.true_and] at hgives
        simp [hptr, hgives]

end Map

section Range

variable {env : PageEnv} {alloc : BinderAlloc} {start stop i : Nat} {e : Option Errno} {pages : Pages}

theorem updatePageRange_grows (h : binderUpdatePageRange env alloc start stop = (e, pages)) :
    Grows alloc.pages pages ∧ (e = none → start < stop → ∀ a ∈ pageAddrs start stop,
      (pages.page (pageIndex alloc.buffer a)).pagePtr = true) := by
  unfold binderUpdatePageRange at h
  split at h
  · cases h
    exact ⟨.refl _, fun _ hlt => absurd hlt (by omega)⟩
  dsimp only at h
  split at h
  · cases h
    exact ⟨.refl _, nofun⟩
  split at h
  · next hmap =>
    cases h
    obtain ⟨hgrows, hall⟩ := mapPages_grows hmap
    exact ⟨hgrows, fun _ _ => hall rfl⟩
  · next hmap =>
    cases h
    exact ⟨(mapPages_grows hmap).1, nofun⟩

/-- The pages of the range are missing and there is a mapping: then the call changes nothing if the
first page fails, and else it succeeds if it gets all pages. -/
theorem updatePageRange_missing (h : binderUpdatePageRange env alloc start stop = (e, pages))
    (hvma : alloc.vma = true) (hlt : start < stop)
    (hmiss : ∀ a ∈ pageAddrs start stop,
      (alloc.pages.page (pageIndex alloc.buffer a)).pagePtr = false) :
    ((env.mmgetNotZero = false ∨ env.gives (pageIndex alloc.buffer start) = false) ∧ e.isSome ∧
      ∀ i, (pages.page i).pagePtr = (alloc.pages.page i).pagePtr) ∨
    env.mmgetNotZero = true ∧ env.gives (pageIndex alloc.buffer start) = true ∧
      (e = none ↔ ∀ a ∈ pageAddrs start stop, env.gives (pageIndex alloc.buffer a) = true) ∧
      (pages.page (pageIndex alloc.buffer start)).pagePtr = true ∧
      ∀ i, (∀ a ∈ pageAddrs start stop, pageIndex alloc.buffer a ≠ i) →
        pages.page i = alloc.pages.page i := by
  obtain ⟨rest, hrest⟩ : ∃ rest, pageAddrs start stop = start :: rest := by
    unfold pageAddrs
    obtain ⟨k, hk⟩ : ∃ k, (stop - start + (pageSize - 1)) / pageSize = k + 1 :=
      Nat.exists_eq_succ_of_ne_zero (by unfold pageSize; omega)
    rw [hk, List.range_succ_eq_map]
    exact ⟨_, by rw [List.map_cons, Nat.zero_mul, Nat.add_zero]⟩
  have hfirst := hmiss start (by rw [hrest]; exact List.mem_cons_self)
  have hneed : ((pageAddrs start stop).any fun addr =>
      !(alloc.pages.page (pageIndex alloc.buffer addr)).pagePtr) = true :=
    List.any_eq_true.mpr ⟨start, by rw [hrest]; exact List.mem_cons_self, by simp [hfirst]⟩
  unfold binderUpdatePageRange at h
  rw [if_neg (by omega)] at h
  simp only [hneed, hvma, Bool.true_and, Bool.and_true] at h
  cases hmm : env.mmgetNotZero with
  | false =>
    rw [hmm] at h
    cases h
    exact .inl ⟨.inl rfl, rfl, fun _ => rfl⟩
  | true =>
    rw [hmm] at h
    simp only [Bool.not_true, Bool.false_eq_true, if_false, if_true] at h
    match hmap : mapPages env true alloc.buffer start (pageAddrs start stop) alloc.pages with
    | (ok, pages₁) =>
      have hok := mapPages_ok hmap
      have hpages : pages₁ = pages ∧ (e = none ↔ ok = true) := by
        rw [hmap] at h
        cases ok <;> cases h <;> simp
      obtain ⟨rfl, he⟩ := hpages
      cases hgives : env.gives (pageIndex alloc.buffer start) with
      | false =>
        have hmap' := hmap
        rw [hrest, mapPages_cons rfl, if_neg (by simp [hfirst]), if_neg (by simp [hgives])] at hmap'
        obtain ⟨rfl, hpages⟩ := Prod.mk.inj hmap'
        refine .inl ⟨.inr rfl, ?_, fun i => ?_⟩
        · cases e with
          | none => exact absurd (he.mp rfl) (by simp)
          | some _ => rfl
        · rw [← hpages]
          split
          · rw [pages_set_page]
            split
            · next hi => rw [hi, hfirst]
            · rfl
          · rfl
      | true =>
        refine .inr ⟨rfl, rfl, ?_, ?_, fun i hi => mapPages_frame hmap hi⟩
        · rw [he, hok]
          refine forall₂_congr fun a ha => ?_
          simp [hmiss a ha]
        · have hmap' := hmap
          rw [hrest, mapPages_cons rfl, if_neg (by simp [hfirst]), if_pos (by simp [hgives])] at hmap'
          exact (mapPages_grows hmap').1.mono _ (by simp [Pages.set])

theorem mem_pageAddrs {a : Nat} (hmod : a % pageSize = start % pageSize) (h₁ : start ≤ a)
    (h₂ : a < stop) : a ∈ pageAddrs start stop := by
  refine List.mem_map.mpr ⟨(a - start) / pageSize, List.mem_range.mpr ?_, ?_⟩ <;>
    unfold pageSize at * <;> omega

end Range

/-! ## One call -/

/-- The call finds the free buffer `b`, whose first `size` bytes it takes. -/
structure Found (alloc : BinderAlloc) (dataSize offsetsSize extraBuffersSize : Nat) (isAsync : Bool)
    (x : List BinderBuffer) (b : BinderBuffer) (y : List BinderBuffer) (size : Nat) : Prop where
  list : alloc.buffers = x ++ b :: y
  free : b.free = true
  request : ∃ n, requestSize dataSize offsetsSize extraBuffersSize = .ok n ∧ size = max n sizeofPtr
  le : b.userData + size ≤ endOf BinderBuffer.userData alloc.stop y
  vma : alloc.vma = true
  range : pageRange alloc dataSize offsetsSize extraBuffersSize isAsync =
    some (pageAlign b.userData,
      min (pageAlign (b.userData + size)) (pageMask (endOf BinderBuffer.userData alloc.stop y)),
      decide (b.userData + size ≠ endOf BinderBuffer.userData alloc.stop y))

section Call

variable {rb : RbOps BufId} {env : PageEnv} {kzalloc : Option BufId} {alloc alloc' : BinderAlloc}
  {dataSize offsetsSize extraBuffersSize : Nat} {isAsync : Bool} {r : Except Errno BufId}
  {x y : List BinderBuffer} {b : BinderBuffer} {size i : Nat}

theorem takeBuffer_pages {id : BufId} {n : Nat} (h : takeBuffer rb alloc id n dataSize offsetsSize
    extraBuffersSize isAsync = some alloc') : alloc'.pages = alloc.pages := by
  simp only [takeBuffer, binderInsertAllocatedBufferLocked, Option.bind_eq_bind,
    Option.bind_eq_some_iff] at h
  obtain ⟨⟨_, _, _⟩, -, _, ⟨⟨_, _, _⟩, -, _, -, _, -, h₁⟩, ⟨_, _, _⟩, -, h⟩ := h
  cases h
  cases h₁
  rfl

theorem splitBuffer_pages {id new : BufId} {n : Nat} (h : splitBuffer rb alloc id new n = some alloc') :
    alloc'.pages = alloc.pages := by
  simp only [splitBuffer, binderInsertFreeBuffer, Option.bind_eq_bind, Option.bind_eq_some_iff] at h
  obtain ⟨⟨_, _, _⟩, -, ⟨_, _, _⟩, -, _, -, _, -, _, -, h⟩ := h
  cases h
  rfl

/-- What a call does to the pages: nothing if it finds no buffer; else it populates those of
`pageRange`, and keeps what it has populated if it fails. -/
theorem newBuf_pages (h : Inv alloc) (heq : binderAllocNewBufLocked rb env kzalloc alloc dataSize
    offsetsSize extraBuffersSize isAsync = some (r, alloc')) :
    (pageRange alloc dataSize offsetsSize extraBuffersSize isAsync = none ∧ alloc' = alloc ∧
      ∃ err, r = .error err) ∨
    ∃ x b y size start stop split e,
      Found alloc dataSize offsetsSize extraBuffersSize isAsync x b y size ∧
      pageRange alloc dataSize offsetsSize extraBuffersSize isAsync = some (start, stop, split) ∧
      binderUpdatePageRange env alloc start stop = (e, alloc'.pages) ∧
      ((∃ err, r = .error err ∧ (e.isSome ∨ split = true ∧ kzalloc = none)) ∨
        r = .ok b.id ∧ e = none ∧ (split = true → kzalloc.isSome)) := by
  have hrange : pageRange alloc dataSize offsetsSize extraBuffersSize isAsync =
    pageRange alloc dataSize offsetsSize extraBuffersSize isAsync := rfl
  conv at hrange => rhs; unfold pageRange
  unfold binderAllocNewBufLocked at heq
  by_cases hvma : alloc.vma = true
  swap
  · rw [if_pos (by simpa using hvma)] at heq hrange
    cases heq
    exact .inl ⟨hrange, rfl, _, rfl⟩
  rw [if_neg (by simpa using hvma)] at heq hrange
  match hreq : requestSize dataSize offsetsSize extraBuffersSize with
  | .error err =>
    simp only [hreq] at heq hrange
    cases heq
    exact .inl ⟨hrange, rfl, _, rfl⟩
  | .ok n =>
    simp only [hreq] at heq hrange
    by_cases hadm : (isAsync && decide (alloc.freeAsyncSpace < addSize n sizeofBinderBuffer)) = true
    · rw [if_pos hadm] at heq hrange
      cases heq
      exact .inl ⟨hrange, rfl, _, rfl⟩
    rw [if_neg hadm] at heq hrange
    obtain ⟨best, hbest, hfits⟩ := bestFit_spec (max n sizeofPtr) none h.toCore
      (TreeIn.of_perm h.freeTree) (by simp)
    simp only [hbest, Option.join, Option.bind_eq_bind, Option.bind_some, id_eq] at heq hrange
    cases best with
    | none =>
      cases heq
      exact .inl ⟨hrange, rfl, _, rfl⟩
    | some id =>
      obtain ⟨x, b, y, hl, rfl, hf, hsize⟩ := hfits id rfl
      have hids := h.ids
      rw [hl] at hids
      have hloc : locate b.id alloc.buffers = some (x, b, y) := by rw [hl]; exact locate_split hids
      obtain ⟨hsz, hlen, hstop, -⟩ := h.toCore.size hl
      have hbound := h.bound
      have hadd : addSize b.userData (alloc.sizeBefore b y) =
          endOf BinderBuffer.userData alloc.stop y := by
        rw [addSize_eq (by omega)]
        omega
      have hadd' : addSize b.userData (max n sizeofPtr) = b.userData + max n sizeofPtr :=
        addSize_eq (by omega)
      simp only [hloc, h.toCore.bufferSize hl, Option.bind_some, hadd, hadd'] at heq hrange
      have hsplit : decide (alloc.sizeBefore b y ≠ max n sizeofPtr) = decide (b.userData +
          max n sizeofPtr ≠ endOf BinderBuffer.userData alloc.stop y) := by
        rw [decide_eq_decide]
        omega
      have hfound : Found alloc dataSize offsetsSize extraBuffersSize isAsync x b y (max n sizeofPtr) :=
        ⟨hl, hf, ⟨n, hreq, rfl⟩, by omega, hvma, by rw [hrange, hsplit]⟩
      generalize hend : min (pageAlign (b.userData + max n sizeofPtr))
        (pageMask (endOf BinderBuffer.userData alloc.stop y)) = stop at heq hrange
      refine .inr ⟨x, b, y, max n sizeofPtr, pageAlign b.userData, stop,
        decide (alloc.sizeBefore b y ≠ max n sizeofPtr), ?_⟩
      match hup : binderUpdatePageRange env alloc (pageAlign b.userData) stop with
      | (some err, pages) =>
        simp only [hup] at heq
        cases heq
        exact ⟨some err, hfound, hrange, rfl, .inl ⟨err, rfl, .inl rfl⟩⟩
      | (none, pages) =>
        simp only [hup, binderFreePageRange_eq] at heq
        by_cases hne : alloc.sizeBefore b y ≠ max n sizeofPtr
        · rw [if_pos hne] at heq
          cases kzalloc with
          | none =>
            cases heq
            exact ⟨none, hfound, hrange, rfl, .inl ⟨_, rfl, .inr ⟨decide_eq_true hne, rfl⟩⟩⟩
          | some new =>
            obtain ⟨alloc₁, h₁, heq⟩ := Option.bind_eq_some_iff.mp heq
            obtain ⟨alloc₂, h₂, heq⟩ := Option.bind_eq_some_iff.mp heq
            cases heq
            have hpages : alloc'.pages = pages := by rw [takeBuffer_pages h₂, splitBuffer_pages h₁]
            exact ⟨none, hfound, hrange, by rw [hpages], .inr ⟨rfl, rfl, fun _ => rfl⟩⟩
        · rw [if_neg hne] at heq
          obtain ⟨alloc₂, h₂, heq⟩ := Option.bind_eq_some_iff.mp heq
          cases heq
          have hpages : alloc'.pages = pages := takeBuffer_pages h₂
          exact ⟨none, hfound, hrange, by rw [hpages],
            .inr ⟨rfl, rfl, fun hd => absurd (of_decide_eq_true hd) hne⟩⟩

/-! ## Pages in use -/

/-- `PAGE_ALIGN` of an address that does not wrap. -/
theorem pageAlign_spec {a : Nat} (h : a + pageSize ≤ 2 ^ 64) :
    a ≤ pageAlign a ∧ pageAlign a < a + pageSize ∧ pageAlign a % pageSize = 0 := by
  have hmod : (a + (pageSize - 1)) % 2 ^ 64 = a + (pageSize - 1) :=
    Nat.mod_eq_of_lt (by unfold pageSize at *; omega)
  rw [pageAlign, hmod]
  unfold pageSize
  omega

theorem pageMask_spec (a : Nat) :
    pageMask a ≤ a ∧ a < pageMask a + pageSize ∧ pageMask a % pageSize = 0 := by
  unfold pageMask pageSize
  omega

/-- The pages of the free buffer `b` that are not populated for it are shared with a neighbour: one
before it, or one behind it. -/
theorem inUse_of_shared (h : Inv alloc) (hp : alloc.buffer % pageSize = 0)
    (hs : alloc.bufferSize % pageSize = 0) (hl : alloc.buffers = x ++ b :: y) (hf : b.free = true)
    (hsize : b.userData + size ≤ endOf BinderBuffer.userData alloc.stop y)
    (ho : overlaps alloc.buffer i (b, b.userData + size) = true)
    (hout : alloc.buffer + i * pageSize < pageAlign b.userData ∨
      min (pageAlign (b.userData + size)) (pageMask (endOf BinderBuffer.userData alloc.stop y)) ≤
        alloc.buffer + i * pageSize) : inUse alloc i = true := by
  simp only [overlaps, Bool.and_eq_true, decide_eq_true_eq] at ho
  have hna := h.noAdj
  have ht := h.tiles
  have hbound := h.bound
  obtain ⟨-, -, hstop, -⟩ := h.toCore.size hl
  have hstopMod : alloc.stop % pageSize = 0 := by
    unfold BinderAlloc.stop pageSize at *
    omega
  rw [hl] at hna ht
  obtain ⟨hx, hby, hadj⟩ := List.isChain_append.mp hna
  obtain ⟨mid, htx, hbm, -⟩ := Tiles.append_iff.mp ht
  have hpage : (alloc.buffer + i * pageSize) % pageSize = 0 := by
    unfold pageSize at *
    omega
  have hlast : alloc.stop + pageSize ≤ 2 ^ 64 := by
    unfold pageSize at *
    omega
  obtain ⟨hb₁, hb₂, hb₃⟩ := pageAlign_spec (a := b.userData) (by omega)
  obtain ⟨he₁, he₂, he₃⟩ := pageAlign_spec (a := b.userData + size) (by omega)
  obtain ⟨hm₁, hm₂, hm₃⟩ := pageMask_spec (endOf BinderBuffer.userData alloc.stop y)
  generalize hP : alloc.buffer + i * pageSize = P at *
  have hnext : alloc.buffer + (i + 1) * pageSize = P + pageSize := by rw [← hP]; ring
  refine List.any_eq_true.mpr ?_
  rw [hnext] at ho
  rcases Nat.lt_or_ge P (pageAlign b.userData) with hlt | hge
  · -- the page begins before `b`, so there is a buffer before `b`
    have hb : P < b.userData := by
      unfold pageSize at *
      omega
    rcases List.eq_nil_or_concat' x with rfl | ⟨x', p, rfl⟩
    · rw [Tiles.nil_iff] at htx
      omega
    · have hpf : p.free = false := by
        have := hadj p (by simp) b (by simp)
        simpa [hf] using this
      have hsort := h.sorted
      rw [hl, List.append_assoc, List.singleton_append] at hsort
      have hpb : p.userData < b.userData :=
        (List.pairwise_cons.mp (List.pairwise_append.mp hsort).2.1).1 b (by simp)
      refine ⟨(p, b.userData), ?_, ?_⟩
      · exact List.mem_filter.mpr ⟨mem_spans.mpr ⟨x', b :: y, by simp [hl], rfl⟩, by simp [hpf]⟩
      · simp only [overlaps, Bool.and_eq_true, decide_eq_true_eq, hP, hnext]
        omega
  · -- the page ends behind `b`, so there is a buffer behind `b`
    have hle := hout.resolve_left (by omega)
    have hend : pageMask (endOf BinderBuffer.userData alloc.stop y) ≤ P := by omega
    cases y with
    | nil =>
      rw [endOf_nil] at hend hsize hm₂
      unfold pageSize at *
      omega
    | cons n y' =>
      have hnf : n.free = false := by
        have := (List.isChain_cons_cons.mp hby).1
        simpa [hf] using this
      have hn := (h.toCore.size (x := x ++ [b]) (b := n) (y := y') (by simp [hl])).2.1
      rw [endOf_cons] at hend hsize hm₂
      refine ⟨(n, endOf BinderBuffer.userData alloc.stop y'), ?_, ?_⟩
      · exact List.mem_filter.mpr ⟨mem_spans.mpr ⟨x ++ [b], y', by simp [hl], rfl⟩, by simp [hnf]⟩
      · simp only [overlaps, Bool.and_eq_true, decide_eq_true_eq, hP, hnext]
        omega

theorem mem_usedSpans {stop : Nat} {l : List BinderBuffer} {span : BinderBuffer × Nat}
    (h : span ∈ usedSpans stop l) : span.1 ∈ l ∧ span.1.free = false := by
  obtain ⟨hspan, hf⟩ := List.mem_filter.mp h
  obtain ⟨l₁, l₂, he, -⟩ := mem_spans.mp hspan
  exact ⟨by rw [he]; simp, by simpa using hf⟩

/-- Free buffers have no spans. -/
theorem usedSpans_eq_nil {stop : Nat} {l : List BinderBuffer} (h : ∀ b ∈ l, b.free = true) :
    usedSpans stop l = [] := by
  refine List.eq_nil_iff_forall_not_mem.mpr fun span hspan => ?_
  obtain ⟨hmem, hf⟩ := mem_usedSpans hspan
  simp [h _ hmem] at hf

/-- A call that succeeds: the first `size` bytes of `b` come into use. -/
theorem usedSpans_newBuf {id : BufId} (hsame : SameSpace alloc alloc')
    (hnew : NewBuf alloc alloc' id dataSize offsetsSize extraBuffersSize isAsync) {n : Nat}
    (hreq : requestSize dataSize offsetsSize extraBuffersSize = .ok n) :
    ∃ x b y, alloc.buffers = x ++ b :: y ∧ b.id = id ∧
      usedSpans alloc.stop alloc.buffers = usedSpans b.userData x ++ usedSpans alloc.stop y ∧
      usedSpans alloc'.stop alloc'.buffers = usedSpans b.userData x ++
        (b.taken dataSize offsetsSize extraBuffersSize isAsync, b.userData + max n sizeofPtr) ::
          usedSpans alloc.stop y := by
  obtain ⟨x, b, y, rest, hl, hid, hf, hl', hrest, hend⟩ := hnew.list
  have hstop : alloc'.stop = alloc.stop := by rw [BinderAlloc.stop, hsame.1, hsame.2.1]; rfl
  have hnone : usedSpans (endOf BinderBuffer.userData alloc.stop y) rest = [] :=
    usedSpans_eq_nil hrest
  refine ⟨x, b, y, hl, hid, ?_, ?_⟩
  · rw [hl, usedSpans_append, usedSpans_free hf]
    rfl
  · rw [hl', hstop, usedSpans_append, usedSpans_used (by rfl), hend n hreq, usedSpans_append, hnone]
    rfl

/-- A page in use after a call that succeeds. -/
theorem inUse_newBuf {id : BufId} (hids : (alloc.buffers.map (·.id)).Nodup)
    (hsame : SameSpace alloc alloc')
    (hnew : NewBuf alloc alloc' id dataSize offsetsSize extraBuffersSize isAsync)
    (hfound : Found alloc dataSize offsetsSize extraBuffersSize isAsync x b y size)
    (hid : b.id = id) :
    inUse alloc' i = (inUse alloc i || overlaps alloc.buffer i (b, b.userData + size)) := by
  obtain ⟨n, hreq, rfl⟩ := hfound.request
  obtain ⟨x', b', y', hl, hid', hold, hnow⟩ := usedSpans_newBuf hsame hnew hreq
  have hb : b' = b := by
    have hmem : b ∈ alloc.buffers := by rw [hfound.list]; simp
    exact List.inj_on_of_nodup_map hids (by rw [hl]; simp) hmem (hid'.trans hid.symm)
  subst hb
  have htaken : overlaps alloc.buffer i (b'.taken dataSize offsetsSize extraBuffersSize isAsync,
      b'.userData + max n sizeofPtr) = overlaps alloc.buffer i (b', b'.userData + max n sizeofPtr) := rfl
  rw [inUse, inUse, hnow, hold, hsame.1, List.any_append, List.any_cons, List.any_append, htaken]
  cases (usedSpans b'.userData x').any (overlaps alloc.buffer i) <;>
    cases overlaps alloc.buffer i (b', b'.userData + max n sizeofPtr) <;> simp

/-- What carries the pages over a run. -/
structure PageInv (alloc : BinderAlloc) : Prop extends Inv alloc where
  idle : Idle alloc
  start : alloc.buffer % pageSize = 0
  size : alloc.bufferSize % pageSize = 0
  backed : ∀ i, inUse alloc i = true → (alloc.pages.page i).pagePtr = true
  lru : ∀ i, (alloc.pages.page i).lru = false

theorem PageInv.init {vma : Vma} {id : BufId} (hv : vma.WellFormed)
    (h : binderAllocMmapHandler rb binderAllocInit vma true (some id) = some (none, alloc)) :
    PageInv alloc := by
  obtain ⟨hinv, -, -, hfree⟩ := Inv.init hv h
  have hnone : usedSpans alloc.stop alloc.buffers = [] := usedSpans_eq_nil hfree
  have hfields : alloc.buffer = vma.vmStart ∧
      alloc.bufferSize = min (subSize vma.vmEnd vma.vmStart) sz4M ∧
      ∀ i, (alloc.pages.page i).lru = false := by
    obtain ⟨alloc₁, h₁, h⟩ := Option.bind_eq_some_iff.mp h
    simp only [binderInsertFreeBuffer, Option.bind_eq_bind, Option.bind_eq_some_iff] at h₁
    obtain ⟨⟨_, _, _⟩, -, _, -, _, -, _, -, h₁⟩ := h₁
    cases h₁
    cases h
    exact ⟨rfl, rfl, fun _ => rfl⟩
  obtain ⟨hbuf, hsize, hlru⟩ := hfields
  have hstart := hv.start
  have hstop := hv.stop
  refine ⟨hinv, fun b hb hf => by simp [hfree b hb] at hf, by rw [hbuf]; exact hstart, ?_,
    fun i hi => ?_, hlru⟩
  · rw [hsize, subSize_eq (Nat.le_of_lt hv.lt) hv.bound]
    unfold sz4M pageSize at *
    omega
  · simp [inUse, hnone] at hi

theorem PageInv.newBuf (h : PageInv alloc) (hk : ∀ new ∈ kzalloc, new ∉ alloc.buffers.map (·.id))
    (heq : binderAllocNewBufLocked rb env kzalloc alloc dataSize offsetsSize extraBuffersSize isAsync =
      some (r, alloc')) : PageInv alloc' := by
  have hspec : NewBufOk alloc dataSize offsetsSize extraBuffersSize isAsync _ :=
    binderAllocNewBufLocked_spec rb env kzalloc h.toInv hk
  obtain ⟨r₁, alloc₁, heq₁, hinv, hsame, herr, hnew⟩ := hspec
  rw [heq] at heq₁
  cases heq₁
  rcases newBuf_pages h.toInv heq with ⟨-, rfl, -⟩ | ⟨x, b, y, size, start, stop, split, e, hfound,
    hrange, hup, hr⟩
  · exact h
  rw [hfound.range] at hrange
  cases hrange
  obtain ⟨hgrows, hall⟩ := updatePageRange_grows hup
  rcases hr with ⟨err, rfl, -⟩ | ⟨rfl, rfl, -⟩
  · have halloc := herr err rfl
    have huse : ∀ i, inUse alloc' i = inUse alloc i := fun i => by rw [halloc]; rfl
    refine ⟨hinv, by rw [halloc]; exact h.idle, by rw [hsame.1]; exact h.start,
      by rw [hsame.2.1]; exact h.size, fun i hi => ?_, fun i => hgrows.lru i (h.lru i)⟩
    exact hgrows.mono i (h.backed i (by rw [← huse]; exact hi))
  · refine ⟨hinv, h.idle.newBuf h.toInv (hnew _ rfl), by rw [hsame.1]; exact h.start,
      by rw [hsame.2.1]; exact h.size, fun i hi => ?_, fun i => hgrows.lru i (h.lru i)⟩
    rw [inUse_newBuf h.ids hsame (hnew _ rfl) hfound rfl, Bool.or_eq_true] at hi
    rcases hi with hi | hi
    · exact hgrows.mono i (h.backed i hi)
    · -- the page is one of those that the call populates, or a neighbour has it
      by_cases hin : pageAlign b.userData ≤ alloc.buffer + i * pageSize ∧
          alloc.buffer + i * pageSize < min (pageAlign (b.userData + size))
            (pageMask (endOf BinderBuffer.userData alloc.stop y))
      · have hmod : pageAlign b.userData % pageSize = 0 := Nat.mul_mod_left _ _
        have hmem : alloc.buffer + i * pageSize ∈ pageAddrs (pageAlign b.userData)
            (min (pageAlign (b.userData + size))
              (pageMask (endOf BinderBuffer.userData alloc.stop y))) :=
          mem_pageAddrs (by rw [Nat.add_mul_mod_self_right, h.start, hmod]) hin.1 hin.2
        have hptr := hall rfl (by omega) _ hmem
        rwa [pageIndex, Nat.add_sub_cancel_left, Nat.mul_div_cancel _ (by decide)] at hptr
      · refine hgrows.mono i (h.backed i ?_)
        exact inUse_of_shared h.toInv h.start h.size hfound.list hfound.free hfound.le hi (by omega)

theorem PageInv.freeBuf (h : PageInv alloc) {id : BufId}
    (hv : ∃ b ∈ alloc.buffers, b.id = id ∧ b.free = false)
    (heq : binderFreeBufLocked rb alloc id = some alloc') : PageInv alloc' := by
  obtain ⟨b, hb, rfl, hf⟩ := hv
  obtain ⟨x, y, hl⟩ := List.append_of_mem hb
  have htx := h.idle b hb hf
  obtain ⟨alloc₁, heq₁, hinv, hsame, -, hfilter, hpages, hspans⟩ :=
    binderFreeBufLocked_spec rb h.toInv hl hf htx
  rw [heq] at heq₁
  cases heq₁
  have hsub : ∀ c ∈ x ++ y, c ∈ alloc.buffers := fun c hc => by
    rw [hl]
    simp only [List.mem_append, List.mem_cons] at hc ⊢
    tauto
  refine ⟨hinv, h.idle.of_filter hsub hfilter, by rw [hsame.1]; exact h.start,
    by rw [hsame.2.1]; exact h.size, fun i hi => ?_, by rw [hpages]; exact h.lru⟩
  rw [hpages]
  refine h.backed i ?_
  rw [inUse, hspans, hsame.1, List.any_append] at hi
  rw [inUse, hl, usedSpans_append, usedSpans_used hf, List.any_append, List.any_cons, endOf_cons]
  rw [Bool.or_eq_true] at hi
  rcases hi with hi | hi <;> simp [hi]

theorem PageInv.step {op : AllocOp} (h : PageInv alloc) (hst : (allocSys rb).step alloc op alloc') :
    PageInv alloc' := by
  obtain ⟨hv, r, heq⟩ := hst
  cases op with
  | newBuf env kzalloc dataSize offsetsSize extraBuffersSize isAsync =>
    simp only [BinderAlloc.exec, Option.bind_eq_bind] at heq
    obtain ⟨⟨r₁, alloc₁⟩, heq₁, he⟩ := Option.bind_eq_some_iff.mp heq
    have hinv := h.newBuf hv.1 heq₁
    cases r₁ <;> cases he <;> exact hinv
  | freeBuf id =>
    simp only [BinderAlloc.exec, Option.bind_eq_bind] at heq
    obtain ⟨alloc₁, heq₁, he⟩ := Option.bind_eq_some_iff.mp heq
    cases he
    exact h.freeBuf hv heq₁
  | vmaClose =>
    cases heq
    exact ⟨⟨⟨h.tiles, h.aligned, h.ids, h.txn, h.bound, h.stopAligned⟩, h.freeTree, h.allocTree,
      h.noAdj, h.nonempty⟩, h.idle, h.start, h.size, h.backed, h.lru⟩

theorem pageInv_of_reach (h : (allocSys rb).Reach alloc) : PageInv alloc := by
  refine Sys.Reach.inv (I := PageInv) ?_ (fun _ _ _ hi hst => hi.step hst) h
  rintro alloc ⟨vma, id, hv, heq⟩
  exact .init hv heq

/-! ## Access -/

/-- The pages of an allocated buffer are there. -/
theorem PageInv.page (h : PageInv alloc) (hl : alloc.buffers = x ++ b :: y) (hf : b.free = false)
    (ho : overlaps alloc.buffer i (b, endOf BinderBuffer.userData alloc.stop y) = true) :
    i < alloc.bufferSize / pageSize ∧ (alloc.pages.page i).pagePtr = true := by
  have huse : inUse alloc i = true := by
    refine List.any_eq_true.mpr ⟨_, List.mem_filter.mpr ⟨mem_spans.mpr ⟨x, y, hl, rfl⟩, ?_⟩, ho⟩
    simp [hf]
  refine ⟨?_, h.backed i huse⟩
  have hend := (h.toCore.size hl).2.2.1
  have hsize := h.size
  simp only [overlaps, Bool.and_eq_true, decide_eq_true_eq] at ho
  unfold BinderAlloc.stop pageSize at *
  omega

/-- `binder_alloc_get_page` inside an allocated buffer finds a page. -/
theorem PageInv.getPage (h : PageInv alloc) (hl : alloc.buffers = x ++ b :: y) (hf : b.free = false)
    {o : Nat} (ho : b.userData + o < endOf BinderBuffer.userData alloc.stop y) :
    ∃ index pgoff, binderAllocGetPage alloc b.id o = some (index, pgoff, true) ∧
      pgoff < pageSize ∧ index < alloc.bufferSize / pageSize := by
  have hids := h.ids
  rw [hl] at hids
  have hloc : locate b.id alloc.buffers = some (x, b, y) := by rw [hl]; exact locate_split hids
  have hend := (h.toCore.size hl).2.2.1
  have hbound := h.bound
  have hlo : alloc.buffer ≤ b.userData := (h.tiles.mem_bounds (by rw [hl]; simp)).1
  have hoff : addSize o (subSize b.userData alloc.buffer) = o + (b.userData - alloc.buffer) := by
    rw [subSize_eq hlo (by omega), addSize_eq (by omega)]
  have hpage := h.page (i := (o + (b.userData - alloc.buffer)) / pageSize) hl hf (by
    simp only [overlaps, Bool.and_eq_true, decide_eq_true_eq]
    unfold pageSize
    omega)
  refine ⟨_, _, ?_, Nat.mod_lt (o + (b.userData - alloc.buffer)) (by decide), hpage.1⟩
  simp only [binderAllocGetPage, hloc, Option.bind_eq_bind, Option.bind_some, hoff, hpage.2]

/-- Every access of a copy inside an allocated buffer finds a page. -/
theorem PageInv.copyAccesses (h : PageInv alloc) (hl : alloc.buffers = x ++ b :: y)
    (hf : b.free = false) {fuel offset bytes : Nat}
    (hin : b.userData + offset + bytes ≤ endOf BinderBuffer.userData alloc.stop y) :
    ∃ l, Binder.copyAccesses alloc b.id fuel offset bytes = some l ∧
      ∀ a ∈ l, a.1.2.2 = true ∧ a.1.1 < alloc.bufferSize / pageSize := by
  induction fuel generalizing offset bytes with
  | zero => exact ⟨[], rfl, nofun⟩
  | succ fuel ih =>
    by_cases hbytes : bytes = 0
    · exact ⟨[], by rw [Binder.copyAccesses, if_pos hbytes], nofun⟩
    · obtain ⟨index, pgoff, hget, -, hindex⟩ := h.getPage hl hf (o := offset) (by omega)
      have hend := (h.toCore.size hl).2.2.1
      have hbound := h.bound
      have hmin : min bytes (pageSize - pgoff) ≤ bytes := Nat.min_le_left _ _
      have hadd : addSize offset (min bytes (pageSize - pgoff)) =
          offset + min bytes (pageSize - pgoff) := addSize_eq (by omega)
      have hfit : b.userData + (offset + min bytes (pageSize - pgoff)) +
          (bytes - min bytes (pageSize - pgoff)) ≤ endOf BinderBuffer.userData alloc.stop y := by omega
      obtain ⟨l, hcopy, hall⟩ := ih hfit
      refine ⟨((index, pgoff, true), min bytes (pageSize - pgoff)) :: l, ?_, ?_⟩
      · rw [Binder.copyAccesses, if_neg hbytes, hget]
        simp only [Option.bind_eq_bind, Option.bind_some, hadd, hcopy]
      · intro a ha
        rcases List.mem_cons.mp ha with rfl | ha
        · exact ⟨rfl, hindex⟩
        · exact hall a ha

/-- What `check_buffer` accepts is inside an allocated buffer. -/
theorem checkBuffer_inside {id : BufId} {offset bytes : Nat} (h : Inv alloc)
    (hc : checkBuffer alloc id offset bytes = some true) :
    ∃ x b y, alloc.buffers = x ++ b :: y ∧ b.id = id ∧ b.free = false ∧
      b.userData + offset + bytes ≤ endOf BinderBuffer.userData alloc.stop y := by
  simp only [checkBuffer, Option.bind_eq_bind, Option.bind_eq_some_iff] at hc
  obtain ⟨⟨x, b, y⟩, hloc, n, hsize, hc⟩ := hc
  obtain ⟨hl, rfl⟩ := locate_some hloc
  rw [h.toCore.bufferSize hl] at hsize
  cases hsize
  simp only [Option.some.injEq, Bool.and_eq_true, decide_eq_true_eq, Bool.not_eq_true'] at hc
  obtain ⟨⟨⟨⟨hbytes, hoffset⟩, -⟩, hf⟩, -⟩ := hc
  obtain ⟨hsz, hlen, hend, -⟩ := h.toCore.size hl
  have hbound := h.bound
  rw [subSize_eq hbytes (by omega)] at hoffset
  exact ⟨x, b, y, hl, rfl, hf, by omega⟩

end Call

/-- **Every byte of an allocated buffer is backed by a page**, in every state of every run; so every
page that `binder_alloc_get_page` looks up for an offset that `check_buffer` accepts is there, and so
is every page of a copy. -/
theorem allocSys_backed {rb : RbOps BufId} {alloc : BinderAlloc} (h : (allocSys rb).Reach alloc) :
    (∀ b ∈ alloc.buffers, b.free = false → ∃ n, alloc.binderAllocBufferSize b.id = some n ∧
      ∀ i, alloc.buffer + i * pageSize < b.userData + n →
        b.userData < alloc.buffer + (i + 1) * pageSize →
        i < alloc.bufferSize / pageSize ∧ (alloc.pages.page i).pagePtr = true) ∧
    (∀ id offset bytes, checkBuffer alloc id offset bytes = some true →
      (∀ o, offset ≤ o → o < offset + bytes → ∃ index pgoff,
        binderAllocGetPage alloc id o = some (index, pgoff, true) ∧ pgoff < pageSize ∧
          index < alloc.bufferSize / pageSize) ∧
      ∃ l, copyAccesses alloc id bytes offset bytes = some l ∧
        ∀ a ∈ l, a.1.2.2 = true ∧ a.1.1 < alloc.bufferSize / pageSize) := by
  have hinv := pageInv_of_reach h
  refine ⟨fun b hb hf => ?_, fun id offset bytes hc => ?_⟩
  · obtain ⟨x, y, hl⟩ := List.append_of_mem hb
    obtain ⟨hsz, hlen, -, -⟩ := hinv.toCore.size hl
    refine ⟨_, hinv.toCore.bufferSize hl, fun i h₁ h₂ => hinv.page hl hf ?_⟩
    simp only [overlaps, Bool.and_eq_true, decide_eq_true_eq]
    omega
  · obtain ⟨x, b, y, hl, rfl, hf, hin⟩ := checkBuffer_inside hinv.toInv hc
    exact ⟨fun o h₁ h₂ => hinv.getPage hl hf (by omega), hinv.copyAccesses hl hf hin⟩

/-! ## The LRU -/

/-- What the LRU is for: the populated pages on it are those that no allocated buffer intersects; so
once no buffer is allocated, a walk over it frees all pages; and `binder_alloc_print_pages` counts
the pages in use as active. -/
structure PagesOk (alloc : BinderAlloc) : Prop where
  lru : ∀ i < alloc.bufferSize / pageSize, (alloc.pages.page i).pagePtr = true →
    ((alloc.pages.page i).lru = true ↔ inUse alloc i = false)
  reclaim : (∀ b ∈ alloc.buffers, b.free = true) → ∀ i < alloc.bufferSize / pageSize,
    ((lruWalk alloc).page i).pagePtr = false
  active : alloc.vma = true → (binderAllocPrintPages alloc).1 =
    (List.range (alloc.bufferSize / pageSize)).countP (inUse alloc)

/-- The call leaves no page without a buffer: a call that allocates populates no page, or fails at
the first one, or succeeds; a buffer that is freed has no page of its own. -/
def KeepsPages (alloc : BinderAlloc) : AllocOp → Prop
  | .newBuf env kzalloc dataSize offsetsSize extraBuffersSize isAsync =>
    ∀ start stop split, pageRange alloc dataSize offsetsSize extraBuffersSize isAsync =
        some (start, stop, split) → start < stop →
      env.mmgetNotZero = false ∨ env.gives (pageIndex alloc.buffer start) = false ∨
      (∀ a ∈ pageAddrs start stop, env.gives (pageIndex alloc.buffer a) = true) ∧
        (split = true → kzalloc.isSome)
  | .freeBuf id => ∀ b e i, (b, e) ∈ usedSpans alloc.stop alloc.buffers → b.id = id →
      overlaps alloc.buffer i (b, e) = true → i < alloc.bufferSize / pageSize →
      ∃ span ∈ usedSpans alloc.stop alloc.buffers, span.1.id ≠ id ∧
        overlaps alloc.buffer i span = true
  | .vmaClose => True

section Lru

variable {rb : RbOps BufId} {alloc alloc' : BinderAlloc} {op : AllocOp} {i : Nat}

/-- Every populated page is in use. -/
def AllUsed (alloc : BinderAlloc) : Prop :=
  ∀ i < alloc.bufferSize / pageSize, (alloc.pages.page i).pagePtr = true → inUse alloc i = true

/-- The LRU is empty, so all populated pages have to be in use. -/
theorem pagesOk_iff (h : PageInv alloc) : PagesOk alloc ↔ AllUsed alloc := by
  constructor
  · intro hok i hi hptr
    have := hok.lru i hi hptr
    simpa [h.lru i] using this
  · intro hused
    have hwalk : lruWalk alloc = alloc.pages := by
      unfold lruWalk
      have hstep : ∀ (l : List Nat), l.foldl (fun pages i => if (pages.page i).lru then
          binderAllocFreePage true true true pages i else pages) alloc.pages = alloc.pages := by
        intro l
        induction l with
        | nil => rfl
        | cons i l ih =>
          rw [List.foldl_cons, if_neg (by simp [h.lru i])]
          exact ih
      exact hstep _
    refine ⟨fun i hi hptr => by simp [h.lru i, hused i hi hptr], fun hfree i hi => ?_, fun hvma => ?_⟩
    · rw [hwalk]
      by_contra hptr
      have huse := hused i hi (by simpa using hptr)
      obtain ⟨span, hspan, -⟩ := List.any_eq_true.mp huse
      obtain ⟨hmem, hnot⟩ := mem_usedSpans hspan
      simp [hfree span.1 hmem] at hnot
    · unfold binderAllocPrintPages
      rw [if_pos hvma]
      simp only [List.countP_map]
      refine List.countP_congr fun i hi => ?_
      have hlt := List.mem_range.mp hi
      simp only [Function.comp, h.lru i, Bool.not_false, Bool.and_true]
      exact ⟨hused i hlt, h.backed i⟩

/-- A free keeps it if the buffer has no page of its own. -/
theorem allUsed_freeBuf (h : PageInv alloc) (hused : AllUsed alloc) {id : BufId}
    (hv : ∃ b ∈ alloc.buffers, b.id = id ∧ b.free = false)
    (heq : binderFreeBufLocked rb alloc id = some alloc') :
    AllUsed alloc' ↔ KeepsPages alloc (.freeBuf id) := by
  obtain ⟨b, hb, rfl, hf⟩ := hv
  obtain ⟨x, y, hl⟩ := List.append_of_mem hb
  obtain ⟨alloc₁, heq₁, hinv, hsame, -, -, hpages, hspans⟩ :=
    binderFreeBufLocked_spec rb h.toInv hl hf (h.idle b hb hf)
  rw [heq] at heq₁
  cases heq₁
  have hold : usedSpans alloc.stop alloc.buffers = usedSpans b.userData x ++
      (b, endOf BinderBuffer.userData alloc.stop y) :: usedSpans alloc.stop y := by
    rw [hl, usedSpans_append, usedSpans_used hf]
    rfl
  -- the spans of the other buffers
  have hother : ∀ span, span ∈ usedSpans b.userData x ++ usedSpans alloc.stop y ↔
      span ∈ usedSpans alloc.stop alloc.buffers ∧ span.1.id ≠ b.id := by
    intro span
    have hids := h.ids
    rw [hl, List.map_append, List.map_cons, List.nodup_middle, ← List.map_append] at hids
    have hne : span.1 ∈ x ++ y → span.1.id ≠ b.id := fun hmem he =>
      (List.nodup_cons.mp hids).1 (he ▸ List.mem_map_of_mem hmem)
    rw [hold]
    simp only [List.mem_append, List.mem_cons]
    constructor
    · rintro (hspan | hspan)
      · exact ⟨.inl hspan, hne (List.mem_append_left _ (mem_usedSpans hspan).1)⟩
      · exact ⟨.inr (.inr hspan), hne (List.mem_append_right _ (mem_usedSpans hspan).1)⟩
    · rintro ⟨hspan | rfl | hspan, hid⟩
      · exact .inl hspan
      · exact absurd rfl hid
      · exact .inr hspan
  have huse : ∀ i, inUse alloc' i = true ↔ ∃ span ∈ usedSpans alloc.stop alloc.buffers,
      span.1.id ≠ b.id ∧ overlaps alloc.buffer i span = true := by
    intro i
    rw [inUse, hspans, hsame.1, List.any_eq_true]
    constructor
    · rintro ⟨span, hspan, ho⟩
      exact ⟨span, ((hother span).mp hspan).1, ((hother span).mp hspan).2, ho⟩
    · rintro ⟨span, hspan, hid, ho⟩
      exact ⟨span, (hother span).mpr ⟨hspan, hid⟩, ho⟩
  rw [AllUsed, hsame.2.1, hpages]
  constructor
  · intro hused' c e i hc hid ho hi
    exact (huse i).mp (hused' i hi (h.backed i (List.any_eq_true.mpr ⟨(c, e), hc, ho⟩)))
  · intro hkeeps i hi hptr
    obtain ⟨span, hspan, ho⟩ := List.any_eq_true.mp (hused i hi hptr)
    by_cases hid : span.1.id = b.id
    · exact (huse i).mpr (hkeeps span.1 span.2 i hspan hid ho hi)
    · exact (huse i).mpr ⟨span, hspan, hid, ho⟩

/-- A page that begins and ends inside a free buffer is not in use. -/
theorem not_inUse (h : Inv alloc) {x y : List BinderBuffer} {b : BinderBuffer}
    (hl : alloc.buffers = x ++ b :: y) (hf : b.free = true)
    (hlo : b.userData ≤ alloc.buffer + i * pageSize)
    (hhi : alloc.buffer + (i + 1) * pageSize ≤ endOf BinderBuffer.userData alloc.stop y) :
    inUse alloc i = false := by
  by_contra huse
  obtain ⟨span, hspan, ho⟩ := List.any_eq_true.mp (Bool.eq_true_of_not_eq_false huse)
  simp only [overlaps, Bool.and_eq_true, decide_eq_true_eq] at ho
  have ht := h.tiles
  rw [hl] at ht hspan
  rw [usedSpans_append, usedSpans_free hf, endOf_cons, List.mem_append] at hspan
  obtain ⟨mid, htx, hbm, mid', -, hty⟩ := Tiles.append_iff.mp ht
  rcases hspan with hspan | hspan
  · obtain ⟨l₁, l₂, hx, hend⟩ := mem_spans.mp (List.mem_filter.mp hspan).1
    rw [hx, ← hbm] at htx
    have := htx.le_endOf.2
    omega
  · obtain ⟨hmem, -⟩ := mem_usedSpans hspan
    have := (hty.mem_bounds hmem).1
    have := hty.lo_eq_endOf
    omega

/-- The pages that a call populates are inside the free buffer that it has found, and begin inside the
bytes that it takes. -/
theorem Found.inside {dataSize offsetsSize extraBuffersSize size start stop a : Nat} {isAsync split : Bool}
    {x y : List BinderBuffer} {b : BinderBuffer} (h : PageInv alloc)
    (hfound : Found alloc dataSize offsetsSize extraBuffersSize isAsync x b y size)
    (hrange : pageRange alloc dataSize offsetsSize extraBuffersSize isAsync = some (start, stop, split))
    (ha : a ∈ pageAddrs start stop) :
    pageIndex alloc.buffer a < alloc.bufferSize / pageSize ∧
      inUse alloc (pageIndex alloc.buffer a) = false ∧
      overlaps alloc.buffer (pageIndex alloc.buffer a) (b, b.userData + size) = true := by
  rw [hfound.range] at hrange
  cases hrange
  obtain ⟨k, hk, rfl⟩ := List.mem_map.mp ha
  rw [List.mem_range] at hk
  have hl := hfound.list
  have hle := hfound.le
  have hlo : alloc.buffer ≤ b.userData := (h.tiles.mem_bounds (by rw [hl]; simp)).1
  obtain ⟨-, -, hstop, -⟩ := h.toCore.size hl
  have hbound := h.bound
  have hstart := h.start
  have hsize := h.size
  have hlast : alloc.stop + pageSize ≤ 2 ^ 64 := by
    unfold BinderAlloc.stop pageSize at *
    omega
  obtain ⟨hb₁, -, hb₃⟩ := pageAlign_spec (a := b.userData) (by omega)
  obtain ⟨-, he₂, he₃⟩ := pageAlign_spec (a := b.userData + size) (by omega)
  obtain ⟨hm₁, -, hm₃⟩ := pageMask_spec (endOf BinderBuffer.userData alloc.stop y)
  -- the page has an index, and ends before the range does
  obtain ⟨i, hi⟩ : ∃ i, pageAlign b.userData + k * pageSize = alloc.buffer + i * pageSize :=
    ⟨(pageAlign b.userData - alloc.buffer) / pageSize + k, by unfold pageSize at *; omega⟩
  have hend : alloc.buffer + (i + 1) * pageSize ≤ min (pageAlign (b.userData + size))
      (pageMask (endOf BinderBuffer.userData alloc.stop y)) := by
    unfold pageSize at *
    omega
  have hindex : pageIndex alloc.buffer (pageAlign b.userData + k * pageSize) = i := by
    rw [hi, pageIndex, Nat.add_sub_cancel_left, Nat.mul_div_cancel _ (by decide)]
  rw [hindex]
  refine ⟨?_, not_inUse h.toInv hl hfound.free (by omega) (by omega), ?_⟩
  · unfold BinderAlloc.stop pageSize at *
    omega
  · simp only [overlaps, Bool.and_eq_true, decide_eq_true_eq]
    unfold pageSize at *
    omega

/-- An allocation keeps it if it populates no page, or none but those of the new buffer. -/
theorem allUsed_newBuf {env : PageEnv} {kzalloc : Option BufId}
    {dataSize offsetsSize extraBuffersSize : Nat} {isAsync : Bool} {r : Except Errno BufId}
    (h : PageInv alloc) (hused : AllUsed alloc)
    (hk : ∀ new ∈ kzalloc, new ∉ alloc.buffers.map (·.id))
    (heq : binderAllocNewBufLocked rb env kzalloc alloc dataSize offsetsSize extraBuffersSize isAsync =
      some (r, alloc')) :
    AllUsed alloc' ↔
      KeepsPages alloc (.newBuf env kzalloc dataSize offsetsSize extraBuffersSize isAsync) := by
  have hspec : NewBufOk alloc dataSize offsetsSize extraBuffersSize isAsync _ :=
    binderAllocNewBufLocked_spec rb env kzalloc h.toInv hk
  obtain ⟨r₁, alloc₁, heq₁, hinv, hsame, herr, hnew⟩ := hspec
  rw [heq] at heq₁
  cases heq₁
  rcases newBuf_pages h.toInv heq with ⟨hrange, rfl, -⟩ |
    ⟨x, b, y, size, start, stop, split, e, hfound, hrange, hup, hr⟩
  · exact ⟨fun _ start stop split hrange' => by simp [hrange] at hrange', fun _ => hused⟩
  have hkeeps : KeepsPages alloc (.newBuf env kzalloc dataSize offsetsSize extraBuffersSize isAsync) ↔
      (start < stop → env.mmgetNotZero = false ∨ env.gives (pageIndex alloc.buffer start) = false ∨
        (∀ a ∈ pageAddrs start stop, env.gives (pageIndex alloc.buffer a) = true) ∧
          (split = true → kzalloc.isSome)) := by
    constructor
    · exact fun hkeeps => hkeeps start stop split hrange
    · intro hkeeps start' stop' split' hrange'
      rw [hrange] at hrange'
      cases hrange'
      exact hkeeps
  rw [hkeeps]
  -- pages in use stay in use
  have hmono : ∀ i, inUse alloc i = true → inUse alloc' i = true := by
    intro i hi
    rcases hr with ⟨err, rfl, -⟩ | ⟨rfl, -, -⟩
    · rw [herr err rfl]
      exact hi
    · rw [inUse_newBuf h.ids hsame (hnew _ rfl) hfound rfl, hi, Bool.true_or]
  have hsamePtr : (∀ i, (alloc'.pages.page i).pagePtr = (alloc.pages.page i).pagePtr) →
      AllUsed alloc' := by
    intro hptr i hi hp
    rw [hsame.2.1] at hi
    exact hmono i (hused i hi (by rw [← hptr]; exact hp))
  by_cases hlt : start < stop
  swap
  · rw [binderUpdatePageRange, if_pos (by omega)] at hup
    obtain ⟨-, hpages⟩ := Prod.mk.inj hup
    exact ⟨fun _ h' => absurd h' hlt, fun _ => hsamePtr fun i => by rw [← hpages]⟩
  have hinside := fun a ha => hfound.inside h hrange (a := a) ha
  have hmiss : ∀ a ∈ pageAddrs start stop,
      (alloc.pages.page (pageIndex alloc.buffer a)).pagePtr = false := by
    intro a ha
    by_contra hptr
    have huse := hused _ (hinside a ha).1 (Bool.eq_true_of_not_eq_false hptr)
    rw [(hinside a ha).2.1] at huse
    cases huse
  have hfirst : start ∈ pageAddrs start stop := mem_pageAddrs rfl (Nat.le_refl _) hlt
  rcases updatePageRange_missing hup hfound.vma hlt hmiss with
    ⟨hfail, -, hptr⟩ | ⟨hmm, hgives, hnone, hpop, hframe⟩
  · refine ⟨fun _ _ => ?_, fun _ => hsamePtr hptr⟩
    rcases hfail with hfail | hfail
    · exact .inl hfail
    · exact .inr (.inl hfail)
  constructor
  · -- a call that fails has populated the first page for no buffer
    intro hused' _
    rcases hr with ⟨err, rfl, -⟩ | ⟨rfl, he, hsplit⟩
    · have huse := hused' _ (by rw [hsame.2.1]; exact (hinside _ hfirst).1) hpop
      rw [herr err rfl] at huse
      have huse : inUse alloc (pageIndex alloc.buffer start) = true := huse
      rw [(hinside _ hfirst).2.1] at huse
      cases huse
    · exact .inr (.inr ⟨hnone.mp he, hsplit⟩)
  · intro hkeeps i hi hptr
    rcases hkeeps hlt with hmm' | hgives' | ⟨hall, hsplit⟩
    · simp [hmm] at hmm'
    · simp [hgives] at hgives'
    have he : e = none := hnone.mpr hall
    rcases hr with ⟨err, rfl, hbad⟩ | ⟨rfl, -, -⟩
    · rcases hbad with hbad | ⟨hs, hkz⟩
      · simp [he] at hbad
      · simp [hkz] at hsplit
        simp [hsplit] at hs
    · by_cases hin : ∃ a ∈ pageAddrs start stop, pageIndex alloc.buffer a = i
      · obtain ⟨a, ha, rfl⟩ := hin
        rw [inUse_newBuf h.ids hsame (hnew _ rfl) hfound rfl, (hinside a ha).2.2, Bool.or_true]
      · push Not at hin
        rw [hframe i hin] at hptr
        rw [hsame.2.1] at hi
        exact hmono i (hused i hi hptr)

/-- Every step keeps it if it meets the condition, and only then. -/
theorem allUsed_step (h : PageInv alloc) (hused : AllUsed alloc)
    (hst : (allocSys rb).step alloc op alloc') : AllUsed alloc' ↔ KeepsPages alloc op := by
  obtain ⟨hv, r, heq⟩ := hst
  cases op with
  | newBuf env kzalloc dataSize offsetsSize extraBuffersSize isAsync =>
    simp only [BinderAlloc.exec, Option.bind_eq_bind] at heq
    obtain ⟨⟨r₁, alloc₁⟩, heq₁, he⟩ := Option.bind_eq_some_iff.mp heq
    have hiff := allUsed_newBuf h hused hv.1 heq₁
    cases r₁ <;> cases he <;> exact hiff
  | freeBuf id =>
    simp only [BinderAlloc.exec, Option.bind_eq_bind] at heq
    obtain ⟨alloc₁, heq₁, he⟩ := Option.bind_eq_some_iff.mp heq
    cases he
    exact allUsed_freeBuf h hused hv heq₁
  | vmaClose =>
    cases heq
    exact ⟨fun _ => trivial, fun _ => hused⟩

end Lru

/-- **The LRU does its work** in every run whose steps leave no page without a buffer; and it does not
after the first step that does. -/
theorem allocSys_pages {rb : RbOps BufId} {alloc : BinderAlloc}
    (h : (allocSys rb).ReachIf KeepsPages alloc) :
    PagesOk alloc ∧ ∀ op alloc', (allocSys rb).step alloc op alloc' →
      (PagesOk alloc' ↔ KeepsPages alloc op) := by
  have hboth : PageInv alloc ∧ AllUsed alloc := by
    refine Sys.ReachIf.inv (I := fun alloc => PageInv alloc ∧ AllUsed alloc) ?_ ?_ h
    · rintro alloc ⟨vma, id, hv, heq⟩
      refine ⟨.init hv heq, fun i _ hptr => ?_⟩
      obtain ⟨alloc₁, h₁, h⟩ := Option.bind_eq_some_iff.mp heq
      simp only [binderInsertFreeBuffer, Option.bind_eq_bind, Option.bind_eq_some_iff] at h₁
      obtain ⟨⟨_, _, _⟩, -, _, -, _, -, _, -, h₁⟩ := h₁
      cases h₁
      cases h
      cases hptr
    · rintro alloc op alloc' ⟨hinv, hused⟩ hkeeps hst
      exact ⟨hinv.step hst, (allUsed_step hinv hused hst).mpr hkeeps⟩
  obtain ⟨hinv, hused⟩ := hboth
  refine ⟨(pagesOk_iff hinv).mpr hused, fun op alloc' hst => ?_⟩
  rw [pagesOk_iff (hinv.step hst)]
  exact allUsed_step hinv hused hst

/-- A buffer of 8 bytes in a mapping of two pages. -/
def oneBuffer : BinderAlloc :=
  (do
    let (_, alloc) ← binderAllocMmapHandler (.unbalanced BufId) binderAllocInit twoPages true (some 1)
    let (_, alloc) ← alloc.exec (.unbalanced BufId) (.newBuf plenty (some 2) 8 0 0 false)
    some alloc).getD binderAllocInit

theorem oneBuffer_reach : (allocSys (.unbalanced BufId)).Reach oneBuffer :=
  Sys.Reach.next (.init ⟨twoPages, 1, twoPages_wellFormed, rfl⟩)
    (a := AllocOp.newBuf plenty (some 2) 8 0 0 false)
    ⟨⟨by decide, by decide, by decide, by decide⟩, none, rfl⟩

theorem allocSys_backed_oneBuffer : checkBuffer oneBuffer 1 0 8 = some true ∧
    ∃ index pgoff, binderAllocGetPage oneBuffer 1 4 = some (index, pgoff, true) ∧
      pgoff < pageSize ∧ index < oneBuffer.bufferSize / pageSize := by
  have hc : checkBuffer oneBuffer 1 0 8 = some true := by decide +kernel
  exact ⟨hc, ((allocSys_backed oneBuffer_reach).2 1 0 8 hc).1 4 (by decide) (by decide)⟩

theorem allocSys_pages_oneBuffer : PagesOk oneBuffer := by
  have hmapped : (allocSys (.unbalanced BufId)).ReachIf KeepsPages _ :=
    .init ⟨twoPages, 1, twoPages_wellFormed, rfl⟩
  refine ((allocSys_pages hmapped).2 (.newBuf plenty (some 2) 8 0 0 false) oneBuffer
    ⟨⟨by decide, by decide, by decide, by decide⟩, none, rfl⟩).mpr ?_
  intro start stop split _ _
  exact .inr (.inr ⟨fun _ _ => rfl, fun _ => rfl⟩)

/-- The page of the buffer after it is freed: it is not in use, and not on the LRU. -/
theorem page_never_reclaimed :
    ¬ ∀ (rb : RbOps BufId) alloc, (allocSys rb).Reach alloc → PagesOk alloc := by
  intro hall
  have hfreed := oneBuffer_reach.next (a := AllocOp.freeBuf 1)
    ⟨⟨_, List.mem_cons_self, rfl, rfl⟩, none, rfl⟩
  have hok := (hall _ _ hfreed).lru 0 (by decide) rfl
  exact absurd hok (by decide)

end Redroid.Binder
