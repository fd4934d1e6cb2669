import Redroid.Kernel.Vma
import Redroid.Lib.RbTree
import Redroid.Lib.Tiling

/-!
# The buffer allocator (`binder/binder_alloc.c`)

`struct binder_alloc` keeps the buffers of a process in one list, ordered by address, and each of
them in one of two trees: the free ones by size, the allocated ones by address. The functions
below are those that change the list or the trees.

Pointers to `struct binder_buffer` are ids; the list holds the structs, and `locate` follows a
pointer: it finds the struct and its neighbours. `none` as a result means that the code stops: a
`BUG_ON`, or a pointer to no struct. Addresses and sizes are `Nat` with the arithmetic of
`size_t`. The results of the kernel functions that can fail are arguments (`PageEnv`, and the
struct that `kzalloc` returns).
-/

namespace Redroid.Binder

/-- A `struct binder_buffer` (its address). -/
abbrev BufId := Nat

/-- `struct binder_buffer`. -/
structure BinderBuffer where
  id : BufId
  userData : Nat
  free : Bool
  allowUserFree : Bool
  asyncTransaction : Bool
  transaction : Option Nat
  dataSize : Nat
  offsetsSize : Nat
  extraBuffersSize : Nat
  deriving DecidableEq, Repr

/-- What `kzalloc` returns for a buffer, with `user_data` and `free` set. -/
def BinderBuffer.zeroed (id : BufId) (userData : Nat) : BinderBuffer where
  id := id
  userData := userData
  free := true
  allowUserFree := false
  asyncTransaction := false
  transaction := none
  dataSize := 0
  offsetsSize := 0
  extraBuffersSize := 0

/-- `sizeof(struct binder_buffer)`. -/
def sizeofBinderBuffer : Nat := 96

/-- `sizeof(void *)`. -/
def sizeofPtr : Nat := 8

/-- `ALIGN(x, sizeof(void *))`, in `size_t`. -/
def alignPtr (x : Nat) : Nat := (x + (sizeofPtr - 1)) % 2 ^ 64 / sizeofPtr * sizeofPtr

/-- `x - y` in `size_t`. -/
def subSize (x y : Nat) : Nat := (x + (2 ^ 64 - y)) % 2 ^ 64

/-- `x + y` in `size_t`. -/
def addSize (x y : Nat) : Nat := (x + y) % 2 ^ 64

/-- `x & PAGE_MASK`. -/
def pageMask (x : Nat) : Nat := x / pageSize * pageSize

/-- `struct binder_lru_page`: whether it has a page, and whether it is on `binder_alloc_lru`. -/
structure BinderLruPage where
  pagePtr : Bool
  lru : Bool
  deriving DecidableEq, Repr

/-- The array `pages`, with `pages_high`. -/
structure Pages where
  page : Nat → BinderLruPage
  high : Nat

/-- `struct binder_alloc`. `vma`: it is set. -/
structure BinderAlloc where
  vma : Bool
  buffer : Nat
  buffers : List BinderBuffer
  freeBuffers : RbTree BufId
  allocatedBuffers : RbTree BufId
  freeAsyncSpace : Nat
  bufferSize : Nat
  pages : Pages

/-! ## Pages -/

/-- `compat_list_lru_add`: its value, and the page after it. -/
def compatListLruAdd (page : BinderLruPage) : Bool × BinderLruPage := (true, page)

/-- `compat_list_lru_del`. -/
def compatListLruDel (page : BinderLruPage) : Bool × BinderLruPage := (true, page)

/-- The results of the kernel functions that `binder_update_page_range` calls, by page index. -/
structure PageEnv where
  mmgetNotZero : Bool
  allocPage : Nat → Bool
  vmInsertPage : Nat → Bool

/-- The page addresses of a loop from `start` to `stop` in steps of `PAGE_SIZE`. -/
def pageAddrs (start stop : Nat) : List Nat :=
  (List.range ((stop - start + (pageSize - 1)) / pageSize)).map (start + · * pageSize)

/-- The index of the page at `addr`. -/
def pageIndex (buffer addr : Nat) : Nat := (addr - buffer) / pageSize

def Pages.set (pages : Pages) (index : Nat) (page : BinderLruPage) : Pages :=
  { pages with page := Function.update pages.page index page }

/-- The loop at `free_range`, from the last page before `stop` down to `start`. -/
def freeRange (buffer start stop : Nat) (pages : Pages) : Pages :=
  (pageAddrs start stop).foldr (fun addr pages =>
    let index := pageIndex buffer addr
    pages.set index (compatListLruAdd (pages.page index)).2) pages

/-- The second loop over the pages to allocate; `false`: it went to one of the error labels in
the loop, and the pages before are given back. -/
def mapPages (env : PageEnv) (vma : Bool) (buffer start : Nat) : List Nat → Pages → Bool × Pages
  | [], pages => (true, pages)
  | addr :: rest, pages =>
    let index := pageIndex buffer addr
    let page := pages.page index
    if page.pagePtr then
      mapPages env vma buffer start rest (pages.set index (compatListLruDel page).2)
    else if !vma then (false, freeRange buffer start addr pages)
    else if !env.allocPage index then (false, freeRange buffer start addr pages)
    else if !env.vmInsertPage index then
      (false, freeRange buffer start addr (pages.set index ⟨false, false⟩))
    else
      let pages := pages.set index ⟨true, false⟩
      mapPages env vma buffer start rest { pages with high := max pages.high (index + 1) }

/-- `binder_update_page_range(alloc, 1, start, stop)`: the error, if it fails, and the pages. -/
def binderUpdatePageRange (env : PageEnv) (alloc : BinderAlloc) (start stop : Nat) :
    Option Errno × Pages :=
  if stop ≤ start then (none, alloc.pages)
  else
    let addrs := pageAddrs start stop
    let needMm := addrs.any fun addr => !(alloc.pages.page (pageIndex alloc.buffer addr)).pagePtr
    let mm := needMm && env.mmgetNotZero
    let vma := mm && alloc.vma
    if !vma && needMm then (some .ESRCH, alloc.pages)
    else match mapPages env vma alloc.buffer start addrs alloc.pages with
      | (true, pages) => (none, pages)
      | (false, pages) => (some (if vma then .ENOMEM else .ESRCH), pages)

/-- `binder_update_page_range(alloc, 0, start, stop)`. -/
def binderFreePageRange (alloc : BinderAlloc) (start stop : Nat) : Pages :=
  if stop ≤ start then alloc.pages else freeRange alloc.buffer start stop alloc.pages

/-! ## The list -/

/-- The struct that `id` points to, with the structs before and after it in the list. -/
def locate (id : BufId) : List BinderBuffer →
    Option (List BinderBuffer × BinderBuffer × List BinderBuffer)
  | [] => none
  | b :: rest =>
    if b.id = id then some ([], b, rest)
    else (locate id rest).map fun (before, b', after) => (b :: before, b', after)

namespace BinderAlloc

/-- The end of the address space. -/
def stop (alloc : BinderAlloc) : Nat := alloc.buffer + alloc.bufferSize

/-- The size of `b` if the buffers `after` follow it. -/
def sizeBefore (alloc : BinderAlloc) (b : BinderBuffer) (after : List BinderBuffer) : Nat :=
  subSize (endOf BinderBuffer.userData alloc.stop after) b.userData

/-- `binder_alloc_buffer_size`. -/
def binderAllocBufferSize (alloc : BinderAlloc) (id : BufId) : Option Nat := do
  let (_, b, after) ← locate id alloc.buffers
  some (alloc.sizeBefore b after)

end BinderAlloc

section Rb

variable (rb : RbOps BufId)

/-- One step of the walk of `binder_insert_free_buffer`. -/
def bySize (alloc : BinderAlloc) (newBufferSize : Nat) (id : BufId) : Option Bool := do
  let (_, buffer, _) ← locate id alloc.buffers
  guard buffer.free
  let bufferSize ← alloc.binderAllocBufferSize id
  some (decide (newBufferSize < bufferSize))

/-- `binder_insert_free_buffer`. -/
def binderInsertFreeBuffer (alloc : BinderAlloc) (new : BufId) : Option BinderAlloc := do
  let (_, b, _) ← locate new alloc.buffers
  guard b.free
  let newBufferSize ← alloc.binderAllocBufferSize new
  let tree ← alloc.freeBuffers.insertBy (bySize alloc newBufferSize) new
  some { alloc with freeBuffers := rb.insertColor tree new }

/-- One step of the walk of `binder_insert_allocated_buffer_locked`. -/
def byAddress (alloc : BinderAlloc) (userData : Nat) (id : BufId) : Option Bool := do
  let (_, buffer, _) ← locate id alloc.buffers
  guard (!buffer.free)
  if userData < buffer.userData then some true
  else if userData > buffer.userData then some false
  else none

/-- `binder_insert_allocated_buffer_locked`. -/
def binderInsertAllocatedBufferLocked (alloc : BinderAlloc) (new : BufId) : Option BinderAlloc := do
  let (_, b, _) ← locate new alloc.buffers
  guard (!b.free)
  let tree ← alloc.allocatedBuffers.insertBy (byAddress alloc b.userData) new
  some { alloc with allocatedBuffers := rb.insertColor tree new }

/-- The search for `best_fit` in the free tree: `best_fit` when the walk ends. -/
def bestFit (alloc : BinderAlloc) (size : Nat) : RbTree BufId → Option BufId → Option (Option BufId)
  | .leaf, best => some best
  | .node _ left id right, best => do
    let (_, buffer, _) ← locate id alloc.buffers
    guard buffer.free
    let bufferSize ← alloc.binderAllocBufferSize id
    if size < bufferSize then bestFit alloc size left (some id)
    else if size > bufferSize then bestFit alloc size right best
    else some (some id)

/-- The size of a request: the three sizes, each aligned, with the checks for overflow. -/
def requestSize (dataSize offsetsSize extraBuffersSize : Nat) : Except Errno Nat :=
  let dataOffsetsSize := addSize (alignPtr dataSize) (alignPtr offsetsSize)
  if dataOffsetsSize < dataSize ∨ dataOffsetsSize < offsetsSize then .error .EINVAL
  else
    let size := addSize dataOffsetsSize (alignPtr extraBuffersSize)
    if size < dataOffsetsSize ∨ size < extraBuffersSize then .error .EINVAL
    else .ok size

/-- The buffer split at `size`: the rest becomes the free buffer `new`, in the list and in the
free tree. -/
def splitBuffer (alloc : BinderAlloc) (id new : BufId) (size : Nat) : Option BinderAlloc := do
  let (before, buffer, after) ← locate id alloc.buffers
  binderInsertFreeBuffer rb
    { alloc with
      buffers := before ++ buffer :: .zeroed new (addSize buffer.userData size) :: after } new

/-- The end of `binder_alloc_new_buf_locked`: the buffer moves from the free tree to the other
one and gets its sizes, and an async buffer is charged. -/
def takeBuffer (alloc : BinderAlloc) (id : BufId)
    (size dataSize offsetsSize extraBuffersSize : Nat) (isAsync : Bool) : Option BinderAlloc := do
  let (before, buffer, after) ← locate id alloc.buffers
  let alloc := { alloc with
    freeBuffers := rb.erase alloc.freeBuffers id
    buffers := before ++ { buffer with free := false, allowUserFree := false } :: after }
  let alloc ← binderInsertAllocatedBufferLocked rb alloc id
  let (before, buffer, after) ← locate id alloc.buffers
  some { alloc with
    buffers := before ++
      { buffer with dataSize, offsetsSize, asyncTransaction := isAsync, extraBuffersSize } :: after
    freeAsyncSpace := if isAsync then subSize alloc.freeAsyncSpace (addSize size sizeofBinderBuffer)
      else alloc.freeAsyncSpace }

/-- `binder_alloc_new_buf_locked`. `kzalloc`: the new struct, if one is needed and the allocation
does not fail. -/
def binderAllocNewBufLocked (env : PageEnv) (kzalloc : Option BufId) (alloc : BinderAlloc)
    (dataSize offsetsSize extraBuffersSize : Nat) (isAsync : Bool) :
    Option (Except Errno BufId × BinderAlloc) :=
  if !alloc.vma then some (.error .ESRCH, alloc)
  else match requestSize dataSize offsetsSize extraBuffersSize with
  | .error e => some (.error e, alloc)
  | .ok size =>
    if isAsync && decide (alloc.freeAsyncSpace < addSize size sizeofBinderBuffer) then
      some (.error .ENOSPC, alloc)
    else
      -- pad 0-size buffers so they get assigned unique addresses
      let size := max size sizeofPtr
      match bestFit alloc size alloc.freeBuffers none with
      | none => none
      | some none => some (.error .ENOSPC, alloc)
      | some (some id) => do
        let (_, buffer, _) ← locate id alloc.buffers
        let bufferSize ← alloc.binderAllocBufferSize id
        let hasPageAddr := pageMask (addSize buffer.userData bufferSize)
        let endPageAddr := min (pageAlign (addSize buffer.userData size)) hasPageAddr
        match binderUpdatePageRange env alloc (pageAlign buffer.userData) endPageAddr with
        | (some e, pages) => some (.error e, { alloc with pages })
        | (none, pages) =>
          let alloc := { alloc with pages }
          if bufferSize ≠ size then
            match kzalloc with
            | none =>
              some (.error .ENOMEM, { alloc with
                pages := binderFreePageRange alloc (pageAlign buffer.userData) endPageAddr })
            | some new => do
              let alloc ← splitBuffer rb alloc id new size
              let alloc ← takeBuffer rb alloc id size dataSize offsetsSize extraBuffersSize isAsync
              some (.ok id, alloc)
          else do
            let alloc ← takeBuffer rb alloc id size dataSize offsetsSize extraBuffersSize isAsync
            some (.ok id, alloc)

/-- `binder_delete_free_buffer`: the buffer leaves the list; its page is given back if neither
neighbour has a part of it. -/
def binderDeleteFreeBuffer (alloc : BinderAlloc) (id : BufId) : Option BinderAlloc := do
  let (before, buffer, after) ← locate id alloc.buffers
  let prev ← before.getLast?
  guard prev.free
  let startPage := pageMask buffer.userData
  let toFree := pageMask (subSize prev.userData 1) ≠ startPage ∧
    after.head?.all (fun next => pageMask next.userData ≠ startPage) ∧
    buffer.userData % pageSize ≠ 0
  some { alloc with
    pages := if toFree then binderFreePageRange alloc startPage (startPage + pageSize)
      else alloc.pages
    buffers := before ++ after }

/-- `binder_free_buf_locked`: the merge with the buffer behind. -/
def mergeNext (alloc : BinderAlloc) (after : List BinderBuffer) : Option BinderAlloc :=
  match after with
  | [] => some alloc
  | next :: _ =>
    if next.free then
      binderDeleteFreeBuffer { alloc with freeBuffers := rb.erase alloc.freeBuffers next.id } next.id
    else some alloc

/-- `binder_free_buf_locked`: the merge with the buffer before, and the insertion. -/
def mergePrev (alloc : BinderAlloc) (id : BufId) (before : List BinderBuffer) :
    Option BinderAlloc :=
  match before.getLast? with
  | none => binderInsertFreeBuffer rb alloc id
  | some prev =>
    if prev.free then do
      let alloc ← binderDeleteFreeBuffer alloc id
      binderInsertFreeBuffer rb { alloc with freeBuffers := rb.erase alloc.freeBuffers prev.id } prev.id
    else binderInsertFreeBuffer rb alloc id

/-- `binder_free_buf_locked`: the buffer joins the free tree, merged with its free neighbours. -/
def binderFreeBufLocked (alloc : BinderAlloc) (id : BufId) : Option BinderAlloc := do
  let (before, buffer, after) ← locate id alloc.buffers
  let bufferSize ← alloc.binderAllocBufferSize id
  let size := addSize (addSize (alignPtr buffer.dataSize) (alignPtr buffer.offsetsSize))
    (alignPtr buffer.extraBuffersSize)
  guard (!buffer.free)
  guard (size ≤ bufferSize)
  guard buffer.transaction.isNone
  guard (alloc.buffer ≤ buffer.userData)
  guard (buffer.userData ≤ alloc.stop)
  let alloc := { alloc with
    freeAsyncSpace := if buffer.asyncTransaction then
      addSize alloc.freeAsyncSpace (addSize size sizeofBinderBuffer) else alloc.freeAsyncSpace
    pages := binderFreePageRange alloc (pageAlign buffer.userData)
      (pageMask (addSize buffer.userData bufferSize))
    allocatedBuffers := rb.erase alloc.allocatedBuffers id
    buffers := before ++ { buffer with free := true } :: after }
  let alloc ← mergeNext rb alloc after
  mergePrev rb alloc id before

/-- `SZ_4M`. -/
def sz4M : Nat := 4194304

/-- `binder_alloc_init`, as far as it is modelled. -/
def binderAllocInit : BinderAlloc where
  vma := false
  buffer := 0
  buffers := []
  freeBuffers := .leaf
  allocatedBuffers := .leaf
  freeAsyncSpace := 0
  bufferSize := 0
  pages := ⟨fun _ => ⟨false, false⟩, 0⟩

/-- `binder_alloc_mmap_handler`. `kcalloc`: the array of pages could be allocated; `kzalloc`: the
struct of the first buffer. -/
def binderAllocMmapHandler (alloc : BinderAlloc) (vma : Vma) (kcalloc : Bool)
    (kzalloc : Option BufId) : Option (Option Errno × BinderAlloc) :=
  if alloc.bufferSize ≠ 0 then some (some .EBUSY, alloc)
  else
    let bufferSize := min (subSize vma.vmEnd vma.vmStart) sz4M
    if !kcalloc then some (some .ENOMEM, { alloc with buffer := 0, bufferSize := 0 })
    else match kzalloc with
      | none => some (some .ENOMEM, { alloc with buffer := 0, bufferSize := 0 })
      | some id => do
        let alloc ← binderInsertFreeBuffer rb { alloc with
          bufferSize, buffer := vma.vmStart
          pages := ⟨fun _ => ⟨false, false⟩, alloc.pages.high⟩
          buffers := .zeroed id vma.vmStart :: alloc.buffers } id
        some (none, { alloc with freeAsyncSpace := bufferSize / 2, vma := true })

/-- The first loop of `binder_alloc_deferred_release`, at most `fuel` times. -/
def releaseAllocated : Nat → BinderAlloc → Option BinderAlloc
  | 0, alloc => if alloc.allocatedBuffers.first.isNone then some alloc else none
  | fuel + 1, alloc =>
    match alloc.allocatedBuffers.first with
    | none => some alloc
    | some id => do releaseAllocated fuel (← binderFreeBufLocked rb alloc id)

/-- The second loop of `binder_alloc_deferred_release`: whether one of its two warnings is given. -/
def releaseWarns : List BinderBuffer → Bool
  | [] => false
  | b :: rest => !b.free || !rest.isEmpty || releaseWarns rest

/-- `binder_alloc_deferred_release` up to the pages: whether it warns. -/
def binderAllocDeferredRelease (fuel : Nat) (alloc : BinderAlloc) : Option Bool := do
  guard (!alloc.vma)
  let alloc ← releaseAllocated rb fuel alloc
  some (releaseWarns alloc.buffers)

end Rb

end Redroid.Binder
