import Redroid.Lib.Bytes
import Redroid.Binder.Pages

/-!
# Copies to and from a buffer (`binder/binder_alloc.c`)

A copy goes page by page: the index of the page and the offset in it come from the offset in the
buffer, which moves.

* `binderAllocDoBufferCopy` and `binderAllocCopyUserToBuffer`, with the contents of the pages.
* `view`: the pages as one piece of memory, by address.
* `copies_flat`: what `check_buffer` accepts, in exact arithmetic, and that a copy it accepts is the
  copy in the one piece of memory.
-/

namespace Redroid.Binder

/-- What the pages of `alloc->pages` hold. -/
abbrev PageMem := Nat → Bytes

/-- The user memory that a copy reads. `left`: how many bytes `copy_from_user` does not copy. -/
structure UserSource where
  byte : Nat → UInt8
  left : Nat → Nat → Nat
  left_le : ∀ src size, left src size ≤ size

/-- `copy_from_user` of `size` bytes to `pgoff` in a page: how many are left, and the page. It sets
those to zero. -/
def UserSource.copyFromUser (user : UserSource) (page : Bytes) (pgoff src size : Nat) : Nat × Bytes :=
  let ret := user.left src size
  (ret, page.blit size pgoff fun i => if i < size - ret then user.byte (addSize src i) else 0)

section Copy

variable (alloc : BinderAlloc)

/-- `kmap` of the page that `binder_alloc_get_page` returns: its index, and the offset in it. -/
def kmapPage (id : BufId) (bufferOffset : Nat) : Option (Nat × Nat) := do
  let (index, pgoff, pagePtr) ← binderAllocGetPage alloc id bufferOffset
  guard (index < alloc.bufferSize / pageSize)
  guard pagePtr
  some (index, pgoff)

variable {alloc} in
theorem kmapPage_lt {id : BufId} {bufferOffset index pgoff : Nat}
    (h : kmapPage alloc id bufferOffset = some (index, pgoff)) : pgoff < pageSize := by
  simp only [kmapPage, binderAllocGetPage, Option.bind_eq_bind, Option.bind_eq_some_iff] at h
  obtain ⟨_, ⟨_, -, h₁⟩, _, -, _, -, h⟩ := h
  cases h₁
  cases h
  exact Nat.mod_lt _ (by decide)

/-- The loop of `binder_alloc_do_buffer_copy`. The kernel memory that `ptr` points into is `kmem`. -/
def doBufferCopyLoop (toBuffer : Bool) (id : BufId) (bufferOffset ptr bytes : Nat) (mem : PageMem)
    (kmem : Bytes) : Option (PageMem × Bytes) :=
  if bytes = 0 then some (mem, kmem)
  else
    match _hk : kmapPage alloc id bufferOffset with
    | none => none
    | some (index, pgoff) =>
      let size := min bytes (pageSize - pgoff)
      let mem' := if toBuffer then
        Function.update mem index ((mem index).blit size pgoff fun i => kmem (ptr + i)) else mem
      let kmem' := if toBuffer then kmem else kmem.blit size ptr fun i => mem index (pgoff + i)
      doBufferCopyLoop toBuffer id (addSize bufferOffset size) (ptr + size) (bytes - size) mem' kmem'
termination_by bytes
decreasing_by
  have := kmapPage_lt _hk
  omega

/-- `binder_alloc_do_buffer_copy`: the error, if any, and both memories after it. -/
def binderAllocDoBufferCopy (toBuffer : Bool) (id : BufId) (bufferOffset ptr bytes : Nat)
    (mem : PageMem) (kmem : Bytes) : Option (Option Errno × PageMem × Bytes) := do
  if ← checkBuffer alloc id bufferOffset bytes then
    let (mem', kmem') ← doBufferCopyLoop alloc toBuffer id bufferOffset ptr bytes mem kmem
    some (none, mem', kmem')
  else some (some .EINVAL, mem, kmem)

/-- `binder_alloc_copy_to_buffer` -/
def binderAllocCopyToBuffer (id : BufId) (bufferOffset src bytes : Nat) (mem : PageMem)
    (kmem : Bytes) : Option (Option Errno × PageMem × Bytes) :=
  binderAllocDoBufferCopy alloc true id bufferOffset src bytes mem kmem

/-- `binder_alloc_copy_from_buffer` -/
def binderAllocCopyFromBuffer (dest : Nat) (id : BufId) (bufferOffset bytes : Nat) (mem : PageMem)
    (kmem : Bytes) : Option (Option Errno × PageMem × Bytes) :=
  binderAllocDoBufferCopy alloc false id bufferOffset dest bytes mem kmem

/-- The loop of `binder_alloc_copy_user_to_buffer`. -/
def copyUserLoop (user : UserSource) (id : BufId) (bufferOffset src bytes : Nat) (mem : PageMem) :
    Option (Nat × PageMem) :=
  if bytes = 0 then some (0, mem)
  else
    match _hk : kmapPage alloc id bufferOffset with
    | none => none
    | some (index, pgoff) =>
      let size := min bytes (pageSize - pgoff)
      let (ret, page) := user.copyFromUser (mem index) pgoff src size
      let mem' := Function.update mem index page
      if ret ≠ 0 then some (bytes - size + ret, mem')
      else copyUserLoop user id (addSize bufferOffset size) (addSize src size) (bytes - size) mem'
termination_by bytes
decreasing_by
  have := kmapPage_lt _hk
  omega

/-- `binder_alloc_copy_user_to_buffer`: the bytes that remain, and the pages. -/
def binderAllocCopyUserToBuffer (user : UserSource) (id : BufId) (bufferOffset src bytes : Nat)
    (mem : PageMem) : Option (Nat × PageMem) := do
  if ← checkBuffer alloc id bufferOffset bytes then
    copyUserLoop alloc user id bufferOffset src bytes mem
  else some (bytes, mem)

/-- The pages as one piece of memory, from `alloc->buffer` on: the byte at `addr`. -/
def view (mem : PageMem) (addr : Nat) : UInt8 := Bytes.flat pageSize mem (addr - alloc.buffer)

/-- Every page that the buffer intersects is populated. -/
def Populated (b : BinderBuffer) : Prop :=
  ∃ n, alloc.binderAllocBufferSize b.id = some n ∧
    ∀ i, alloc.buffer + i * pageSize < b.userData + n →
      b.userData < alloc.buffer + (i + 1) * pageSize →
      i < alloc.bufferSize / pageSize ∧ (alloc.pages.page i).pagePtr = true

end Copy

variable {alloc : BinderAlloc} {x y : List BinderBuffer} {b : BinderBuffer} {id : BufId}
  {bufferOffset offset ptr src bytes index pgoff : Nat} {mem : PageMem} {kmem : Bytes}
  {user : UserSource}

/-! ## One page -/

theorem doBufferCopyLoop_step {toBuffer : Bool} (hb : bytes ≠ 0)
    (hk : kmapPage alloc id offset = some (index, pgoff)) :
    doBufferCopyLoop alloc toBuffer id offset ptr bytes mem kmem =
      let size := min bytes (pageSize - pgoff)
      doBufferCopyLoop alloc toBuffer id (addSize offset size) (ptr + size) (bytes - size)
        (if toBuffer then
          Function.update mem index ((mem index).blit size pgoff fun i => kmem (ptr + i)) else mem)
        (if toBuffer then kmem else kmem.blit size ptr fun i => mem index (pgoff + i)) := by
  rw [doBufferCopyLoop, if_neg hb]
  split
  · rename_i hnone
    rw [hk] at hnone
    cases hnone
  · rename_i heq
    rw [hk] at heq
    cases heq
    rfl

theorem copyUserLoop_step (hb : bytes ≠ 0) (hk : kmapPage alloc id offset = some (index, pgoff)) :
    copyUserLoop alloc user id offset src bytes mem =
      let size := min bytes (pageSize - pgoff)
      let copied := user.copyFromUser (mem index) pgoff src size
      if copied.1 ≠ 0 then some (bytes - size + copied.1, Function.update mem index copied.2)
      else copyUserLoop alloc user id (addSize offset size) (addSize src size) (bytes - size)
        (Function.update mem index copied.2) := by
  rw [copyUserLoop, if_neg hb]
  split
  · rename_i hnone
    rw [hk] at hnone
    cases hnone
  · rename_i heq
    rw [hk] at heq
    cases heq
    rfl

/-- Where a buffer is: from `alloc->buffer`, and where its space ends. -/
theorem Core.place (h : Core alloc) (hl : alloc.buffers = x ++ b :: y) :
    alloc.buffer ≤ b.userData ∧ endOf BinderBuffer.userData alloc.stop y < 2 ^ 64 :=
  ⟨(h.tiles.mem_bounds (by rw [hl]; simp)).1, Nat.lt_of_le_of_lt (h.size hl).2.2.1 h.bound⟩

/-- The page at an offset in a populated buffer. -/
theorem kmapPage_populated (h : Core alloc) (hl : alloc.buffers = x ++ b :: y)
    (hp : Populated alloc b) (offset : Nat)
    (ho : b.userData + offset < endOf BinderBuffer.userData alloc.stop y) :
    ∃ index pgoff, kmapPage alloc b.id offset = some (index, pgoff) ∧ pgoff < pageSize ∧
      index * pageSize + pgoff = b.userData - alloc.buffer + offset := by
  have hids := h.ids
  rw [hl] at hids
  have hloc : locate b.id alloc.buffers = some (x, b, y) := by rw [hl]; exact locate_split hids
  obtain ⟨hlo, hend⟩ := h.place hl
  have hoff : addSize offset (subSize b.userData alloc.buffer) =
      b.userData - alloc.buffer + offset := by
    rw [subSize_eq hlo (by omega), addSize_eq (by omega)]
    omega
  obtain ⟨n, hn, hpages⟩ := hp
  obtain ⟨hsize, hlen, -⟩ := h.size hl
  rw [h.bufferSize hl] at hn
  cases hn
  obtain ⟨hlt, hptr⟩ := hpages ((b.userData - alloc.buffer + offset) / pageSize)
    (by unfold pageSize; omega) (by unfold pageSize; omega)
  refine ⟨(b.userData - alloc.buffer + offset) / pageSize,
    (b.userData - alloc.buffer + offset) % pageSize, ?_, Nat.mod_lt _ (by decide), ?_⟩
  · simp [kmapPage, binderAllocGetPage, hloc, hoff, hlt, hptr]
  · rw [Nat.mul_comm]
    exact Nat.div_add_mod _ _

/-! ## Whole copies -/

/-- The copy to a buffer, page by page, is one copy to the flat memory. -/
theorem doBufferCopyLoop_to (h : Core alloc) (hl : alloc.buffers = x ++ b :: y)
    (hp : Populated alloc b) (ptr : Nat) (mem : PageMem) (kmem : Bytes)
    (hin : b.userData + offset + bytes ≤ endOf BinderBuffer.userData alloc.stop y) :
    ∃ mem', doBufferCopyLoop alloc true b.id offset ptr bytes mem kmem = some (mem', kmem) ∧
      Bytes.flat pageSize mem' = (Bytes.flat pageSize mem).blit bytes
        (b.userData - alloc.buffer + offset) fun i => kmem (ptr + i) := by
  induction bytes using Nat.strong_induction_on generalizing offset ptr mem with
  | _ bytes ih =>
    by_cases hb : bytes = 0
    · subst hb
      exact ⟨mem, by rw [doBufferCopyLoop, if_pos rfl], Bytes.blit_zero.symm⟩
    obtain ⟨index, pgoff, hk, hlt, hplace⟩ := kmapPage_populated h hl hp offset (by omega)
    obtain ⟨-, hend⟩ := h.place hl
    obtain ⟨size, hsize⟩ : ∃ size, size = min bytes (pageSize - pgoff) := ⟨_, rfl⟩
    have hadd : addSize offset size = offset + size := addSize_eq (by omega)
    obtain ⟨mem', heq, hflat⟩ := @ih (bytes - size) (by omega) (offset + size) (ptr + size)
      (Function.update mem index ((mem index).blit size pgoff fun i => kmem (ptr + i))) (by omega)
    refine ⟨mem', ?_, ?_⟩
    · rw [doBufferCopyLoop_step hb hk]
      simp only [← hsize, hadd, if_true, heq]
    · rw [hflat, Bytes.flat_blit (by omega), hplace]
      have hsum : size + (bytes - size) = bytes := by omega
      rw [← hsum, ← Bytes.blit_append, hsum]
      simp only [Nat.add_assoc]

/-- The copy from a buffer is one copy from the flat memory. -/
theorem doBufferCopyLoop_from (h : Core alloc) (hl : alloc.buffers = x ++ b :: y)
    (hp : Populated alloc b) (ptr : Nat) (mem : PageMem) (kmem : Bytes)
    (hin : b.userData + offset + bytes ≤ endOf BinderBuffer.userData alloc.stop y) :
    doBufferCopyLoop alloc false b.id offset ptr bytes mem kmem = some (mem, kmem.blit bytes ptr
      fun i => Bytes.flat pageSize mem (b.userData - alloc.buffer + offset + i)) := by
  induction bytes using Nat.strong_induction_on generalizing offset ptr kmem with
  | _ bytes ih =>
    by_cases hb : bytes = 0
    · subst hb
      rw [doBufferCopyLoop, if_pos rfl, Bytes.blit_zero]
    obtain ⟨index, pgoff, hk, hlt, hplace⟩ := kmapPage_populated h hl hp offset (by omega)
    obtain ⟨-, hend⟩ := h.place hl
    obtain ⟨size, hsize⟩ : ∃ size, size = min bytes (pageSize - pgoff) := ⟨_, rfl⟩
    have hadd : addSize offset size = offset + size := addSize_eq (by omega)
    have hpage : ∀ i < size, mem index (pgoff + i) =
        Bytes.flat pageSize mem (b.userData - alloc.buffer + offset + i) := fun i hi => by
      rw [← hplace, Nat.add_assoc, Bytes.flat_page (by omega)]
    rw [doBufferCopyLoop_step hb hk]
    simp only [← hsize, hadd, Bool.false_eq_true, if_false]
    rw [ih (bytes - size) (by omega) _ _ (by omega), Bytes.blit_congr hpage]
    have hsum : size + (bytes - size) = bytes := by omega
    rw [← hsum, ← Bytes.blit_append, hsum]
    simp only [Nat.add_assoc]

theorem addSize_assoc {a m n : Nat} : addSize (addSize a m) n = addSize a (m + n) := by
  simp only [addSize, Nat.mod_add_mod, Nat.add_assoc]

/-- What a copy from user memory has done when `r` bytes remain: the bytes before them are copied,
and of the others, `z` in one page are zero. -/
structure UserCopied (user : UserSource) (flat flat' : Bytes) (off src bytes r z : Nat) : Prop where
  le : r ≤ bytes
  zeros : z ≤ r
  page : ∀ i < z, (off + (bytes - r) + i) / pageSize = (off + (bytes - r)) / pageSize
  flat : flat' = (flat.blit (bytes - r) off fun i => user.byte (addSize src i)).blit z
    (off + (bytes - r)) fun _ => 0
  done : (∀ a n, user.left a n = 0) → r = 0

/-- The last page of a copy that stops. -/
theorem UserCopied.fault {flat : Bytes} {size : Nat} (hlt : pgoff < pageSize)
    (hsize : size = min bytes (pageSize - pgoff)) (hret : user.left src size ≠ 0) :
    UserCopied user flat (flat.blit size (index * pageSize + pgoff) fun i =>
      if i < size - user.left src size then user.byte (addSize src i) else 0)
      (index * pageSize + pgoff) src bytes (bytes - size + user.left src size)
      (user.left src size) := by
  have hle := user.left_le src size
  have hdone : bytes - (bytes - size + user.left src size) = size - user.left src size := by omega
  refine ⟨by omega, by omega, fun i hi => ?_, ?_, fun hall => absurd (hall _ _) hret⟩
  · have hin : ∀ k < pageSize, (index * pageSize + k) / pageSize = index := fun k hk => by
      rw [Nat.mul_comm, Nat.mul_add_div (by decide), Nat.div_eq_of_lt hk, Nat.add_zero]
    rw [hdone, Nat.add_assoc, Nat.add_assoc, Nat.add_assoc, hin _ (by omega), hin _ (by omega)]
  · rw [hdone]
    have hsum : size - user.left src size + user.left src size = size := by omega
    nth_rewrite 1 [← hsum]
    rw [← Bytes.blit_append]
    refine Eq.trans (congrArg (fun b => Bytes.blit _ b _ _) (Bytes.blit_congr fun i hi => if_pos hi))
      (Bytes.blit_congr fun i _ => if_neg (by omega))

/-- A page before the end. -/
theorem UserCopied.next {flat flat' : Bytes} {off size r z : Nat} (hsize : size ≤ bytes)
    (hret : user.left src size = 0)
    (h : UserCopied user (flat.blit size off fun i =>
      if i < size - user.left src size then user.byte (addSize src i) else 0) flat' (off + size)
      (addSize src size) (bytes - size) r z) : UserCopied user flat flat' off src bytes r z := by
  have hle := h.le
  have hdone : bytes - r = size + (bytes - size - r) := by omega
  refine ⟨by omega, h.zeros, ?_, ?_, h.done⟩
  · rw [hdone, ← Nat.add_assoc]
    exact h.page
  · have hcopy : flat.blit size off (fun i =>
        if i < size - user.left src size then user.byte (addSize src i) else 0) =
        flat.blit size off fun i => user.byte (addSize src i) :=
      Bytes.blit_congr fun i hi => if_pos (by omega)
    rw [h.flat, hcopy, hdone, ← Bytes.blit_append]
    simp only [addSize_assoc, Nat.add_assoc]

/-- What `copy_from_user` does to the flat memory. -/
theorem copyFromUser_flat (user : UserSource) (mem : PageMem) (index src : Nat) {size : Nat}
    (hfit : pgoff + size ≤ pageSize) :
    Bytes.flat pageSize (Function.update mem index
      (user.copyFromUser (mem index) pgoff src size).2) =
    (Bytes.flat pageSize mem).blit size (index * pageSize + pgoff) fun i =>
      if i < size - user.left src size then user.byte (addSize src i) else 0 := by
  simp only [UserSource.copyFromUser]
  exact Bytes.flat_blit hfit

/-- The copy from user memory, page by page. -/
theorem copyUserLoop_spec (h : Core alloc) (hl : alloc.buffers = x ++ b :: y)
    (hp : Populated alloc b) (user : UserSource) (src : Nat) (mem : PageMem)
    (hin : b.userData + offset + bytes ≤ endOf BinderBuffer.userData alloc.stop y) :
    ∃ r z mem', copyUserLoop alloc user b.id offset src bytes mem = some (r, mem') ∧
      UserCopied user (Bytes.flat pageSize mem) (Bytes.flat pageSize mem')
        (b.userData - alloc.buffer + offset) src bytes r z := by
  induction bytes using Nat.strong_induction_on generalizing offset src mem with
  | _ bytes ih =>
    by_cases hb : bytes = 0
    · subst hb
      refine ⟨0, 0, mem, by rw [copyUserLoop, if_pos rfl], Nat.le_refl _, Nat.le_refl _, nofun, ?_,
        fun _ => rfl⟩
      rw [Bytes.blit_zero, Bytes.blit_zero]
    obtain ⟨index, pgoff, hk, hlt, hplace⟩ := kmapPage_populated h hl hp offset (by omega)
    obtain ⟨-, hend⟩ := h.place hl
    obtain ⟨size, hsize⟩ : ∃ size, size = min bytes (pageSize - pgoff) := ⟨_, rfl⟩
    have hadd : addSize offset size = offset + size := addSize_eq (by omega)
    have hpage := copyFromUser_flat user mem index src (show pgoff + size ≤ pageSize by omega)
    have hleft : (user.copyFromUser (mem index) pgoff src size).1 = user.left src size := rfl
    rw [copyUserLoop_step hb hk]
    simp only [← hsize, hadd, hleft]
    by_cases hret : user.left src size = 0
    · rw [if_neg (not_not.mpr hret)]
      obtain ⟨r, z, mem', heq, hcopied⟩ := @ih (bytes - size) (by omega) (offset + size)
        (addSize src size) (Function.update mem index
          (user.copyFromUser (mem index) pgoff src size).2) (by omega)
      refine ⟨r, z, mem', heq, .next (by omega) hret ?_⟩
      rw [hpage, hplace, ← Nat.add_assoc] at hcopied
      exact hcopied
    · rw [if_pos hret]
      refine ⟨_, user.left src size, _, rfl, ?_⟩
      rw [hpage, ← hplace]
      exact .fault hlt hsize hret

/-! ## The functions -/

/-- What `check_buffer` answers, in exact arithmetic. -/
theorem checkBuffer_exact (h : Core alloc) (hl : alloc.buffers = x ++ b :: y) :
    checkBuffer alloc b.id offset bytes = some (decide (
      b.userData + offset + bytes ≤ endOf BinderBuffer.userData alloc.stop y ∧ offset % 4 = 0 ∧
        b.free = false ∧ (b.allowUserFree = false ∨ b.transaction = none))) := by
  have hids := h.ids
  rw [hl] at hids
  have hloc : locate b.id alloc.buffers = some (x, b, y) := by rw [hl]; exact locate_split hids
  obtain ⟨hsize, hlen, -⟩ := h.size hl
  obtain ⟨-, hend⟩ := h.place hl
  simp only [checkBuffer, hloc, h.bufferSize hl, Option.bind_eq_bind, Option.bind_some,
    Option.some.injEq, hsize]
  by_cases hbytes : bytes ≤ endOf BinderBuffer.userData alloc.stop y - b.userData
  · rw [subSize_eq hbytes (by omega), Bool.eq_iff_iff]
    simp only [Bool.and_eq_true, Bool.or_eq_true, decide_eq_true_eq, Bool.not_eq_true',
      Option.isNone_iff_eq_none]
    constructor
    · rintro ⟨⟨⟨⟨-, ho⟩, ha⟩, hf⟩, ht⟩
      exact ⟨by omega, ha, hf, ht⟩
    · rintro ⟨hin, ha, hf, ht⟩
      exact ⟨⟨⟨⟨hbytes, by omega⟩, ha⟩, hf⟩, ht⟩
  · rw [decide_eq_false hbytes]
    simp only [Bool.false_and]
    exact (decide_eq_false fun hin => hbytes (by omega)).symm

variable (alloc) in
/-- A request that is accepted copies between the flat memory and the other one, exactly the bytes
from `user_data + offset` on. -/
structure CopiesFlat (b : BinderBuffer) (offset bytes : Nat) : Prop where
  toBuffer : ∀ src mem kmem, ∃ mem',
    binderAllocCopyToBuffer alloc b.id offset src bytes mem kmem = some (none, mem', kmem) ∧
    ∀ addr, alloc.buffer ≤ addr → view alloc mem' addr =
      if b.userData + offset ≤ addr ∧ addr < b.userData + offset + bytes then
        kmem (src + (addr - (b.userData + offset))) else view alloc mem addr
  fromBuffer : ∀ dest mem kmem, ∃ kmem',
    binderAllocCopyFromBuffer alloc dest b.id offset bytes mem kmem = some (none, mem, kmem') ∧
    ∀ a, kmem' a = if dest ≤ a ∧ a < dest + bytes then
      view alloc mem (b.userData + offset + (a - dest)) else kmem a
  roundTrip : ∀ src dest mem kmem kmem₁, ∃ mem' kmem',
    binderAllocCopyToBuffer alloc b.id offset src bytes mem kmem = some (none, mem', kmem) ∧
    binderAllocCopyFromBuffer alloc dest b.id offset bytes mem' kmem₁ = some (none, mem', kmem') ∧
    ∀ i < bytes, kmem' (dest + i) = kmem (src + i)
  fromUser : ∀ (user : UserSource) src mem, ∃ r z mem',
    binderAllocCopyUserToBuffer alloc user b.id offset src bytes mem = some (r, mem') ∧
    r ≤ bytes ∧ z ≤ r ∧ ((∀ a n, user.left a n = 0) → r = 0) ∧
    (∀ i < z, (b.userData + offset + (bytes - r) + i - alloc.buffer) / pageSize =
      (b.userData + offset + (bytes - r) - alloc.buffer) / pageSize) ∧
    ∀ addr, alloc.buffer ≤ addr → view alloc mem' addr =
      if b.userData + offset ≤ addr ∧ addr < b.userData + offset + (bytes - r) then
        user.byte (addSize src (addr - (b.userData + offset)))
      else if b.userData + offset + (bytes - r) ≤ addr ∧
        addr < b.userData + offset + (bytes - r) + z then 0
      else view alloc mem addr

variable (alloc) in
/-- A request that is rejected changes nothing. -/
structure CopiesNothing (b : BinderBuffer) (offset bytes : Nat) : Prop where
  toBuffer : ∀ src mem kmem, binderAllocCopyToBuffer alloc b.id offset src bytes mem kmem =
    some (some .EINVAL, mem, kmem)
  fromBuffer : ∀ dest mem kmem, binderAllocCopyFromBuffer alloc dest b.id offset bytes mem kmem =
    some (some .EINVAL, mem, kmem)
  fromUser : ∀ user src mem, binderAllocCopyUserToBuffer alloc user b.id offset src bytes mem =
    some (bytes, mem)

/-- A copy in the flat memory, seen by address. -/
theorem view_blit {mem' : PageMem} {src : Bytes} {n a : Nat}
    (hflat : Bytes.flat pageSize mem' = (Bytes.flat pageSize mem).blit n (a - alloc.buffer) src)
    (ha : alloc.buffer ≤ a) (addr : Nat) (haddr : alloc.buffer ≤ addr) :
    view alloc mem' addr = if a ≤ addr ∧ addr < a + n then src (addr - a) else view alloc mem addr := by
  rw [view, hflat, Bytes.blit]
  by_cases hin : a ≤ addr ∧ addr < a + n
  · rw [if_pos hin, if_pos (by omega)]
    congr 1
    omega
  · rw [if_neg hin, if_neg (by omega), view]

theorem copiesFlat (h : Core alloc) (hl : alloc.buffers = x ++ b :: y) (hp : Populated alloc b)
    (hc : checkBuffer alloc b.id offset bytes = some true) : CopiesFlat alloc b offset bytes := by
  have hin : b.userData + offset + bytes ≤ endOf BinderBuffer.userData alloc.stop y := by
    rw [checkBuffer_exact h hl] at hc
    exact (of_decide_eq_true (Option.some.inj hc)).1
  obtain ⟨hlo, -⟩ := h.place hl
  have hoff : b.userData - alloc.buffer + offset = b.userData + offset - alloc.buffer := by omega
  have hto : ∀ src mem kmem, ∃ mem',
      binderAllocCopyToBuffer alloc b.id offset src bytes mem kmem = some (none, mem', kmem) ∧
      ∀ addr, alloc.buffer ≤ addr → view alloc mem' addr =
        if b.userData + offset ≤ addr ∧ addr < b.userData + offset + bytes then
          kmem (src + (addr - (b.userData + offset))) else view alloc mem addr := by
    intro src mem kmem
    obtain ⟨mem', heq, hflat⟩ := doBufferCopyLoop_to h hl hp src mem kmem hin
    rw [hoff] at hflat
    refine ⟨mem', ?_, fun addr haddr => view_blit hflat (by omega) addr haddr⟩
    simp [binderAllocCopyToBuffer, binderAllocDoBufferCopy, hc, heq]
  have hfrom : ∀ dest mem kmem, ∃ kmem',
      binderAllocCopyFromBuffer alloc dest b.id offset bytes mem kmem = some (none, mem, kmem') ∧
      ∀ a, kmem' a = if dest ≤ a ∧ a < dest + bytes then
        view alloc mem (b.userData + offset + (a - dest)) else kmem a := by
    intro dest mem kmem
    have heq := doBufferCopyLoop_from h hl hp dest mem kmem hin
    refine ⟨kmem.blit bytes dest fun i =>
      Bytes.flat pageSize mem (b.userData - alloc.buffer + offset + i), ?_, fun a => ?_⟩
    · simp only [binderAllocCopyFromBuffer, binderAllocDoBufferCopy, hc, heq, Option.bind_eq_bind,
        Option.bind_some, if_true]
    · rw [Bytes.blit, view, hoff, ← Nat.sub_add_comm (by omega)]
  refine ⟨hto, hfrom, fun src dest mem kmem kmem₁ => ?_, fun user src mem => ?_⟩
  · obtain ⟨mem', heq, hview⟩ := hto src mem kmem
    obtain ⟨kmem', heq', hread⟩ := hfrom dest mem' kmem₁
    refine ⟨mem', kmem', heq, heq', fun i hi => ?_⟩
    rw [hread, if_pos (by omega), hview _ (by omega), if_pos (by omega)]
    congr 1
    omega
  · obtain ⟨r, z, mem', heq, hcopied⟩ := copyUserLoop_spec h hl hp user src mem hin
    have hpages := hcopied.page
    have hflat := hcopied.flat
    rw [hoff, ← Nat.sub_add_comm (by omega)] at hpages hflat
    refine ⟨r, z, mem', by simp [binderAllocCopyUserToBuffer, hc, heq], hcopied.le, hcopied.zeros,
      hcopied.done, fun i hi => ?_, fun addr haddr => ?_⟩
    · rw [← hpages i hi, ← Nat.sub_add_comm (by omega)]
    · rw [view, hflat]
      simp only [Bytes.blit]
      by_cases hcopy : b.userData + offset ≤ addr ∧ addr < b.userData + offset + (bytes - r)
      · rw [if_pos hcopy, if_neg (by omega), if_pos (by omega)]
        congr 2
        omega
      · rw [if_neg hcopy]
        by_cases hzero : b.userData + offset + (bytes - r) ≤ addr ∧
            addr < b.userData + offset + (bytes - r) + z
        · rw [if_pos hzero, if_pos (by omega)]
        · rw [if_neg hzero, if_neg (by omega), if_neg (by omega), view]

theorem copiesNothing (hc : checkBuffer alloc b.id offset bytes = some false) :
    CopiesNothing alloc b offset bytes :=
  ⟨fun _ _ _ => by simp [binderAllocCopyToBuffer, binderAllocDoBufferCopy, hc],
    fun _ _ _ => by simp [binderAllocCopyFromBuffer, binderAllocDoBufferCopy, hc],
    fun _ _ _ => by simp [binderAllocCopyUserToBuffer, hc]⟩

/-- **Paged copies refine flat memory**: for every buffer whose pages are populated and every
request, `check_buffer` accepts it iff it is inside the buffer (without wrapping), aligned, and the
driver may touch the buffer; a copy that it accepts ends and is the copy between the flat memory and
the other one; one that it rejects changes nothing. -/
theorem copies_flat (h : Inv alloc) (hb : b ∈ alloc.buffers) (hp : Populated alloc b) :
    ∃ n, alloc.binderAllocBufferSize b.id = some n ∧ alloc.buffer ≤ b.userData ∧
      b.userData + n ≤ alloc.stop ∧ ∀ offset bytes,
      (∃ accepts, checkBuffer alloc b.id offset bytes = some accepts ∧
        (accepts = true ↔ offset + bytes ≤ n ∧ offset % 4 = 0 ∧ b.free = false ∧
          (b.allowUserFree = false ∨ b.transaction = none))) ∧
      (checkBuffer alloc b.id offset bytes = some true → CopiesFlat alloc b offset bytes) ∧
      (checkBuffer alloc b.id offset bytes = some false → CopiesNothing alloc b offset bytes) := by
  obtain ⟨x, y, hl⟩ := List.append_of_mem hb
  obtain ⟨hsize, hlen, hstop, -⟩ := h.toCore.size hl
  refine ⟨_, h.toCore.bufferSize hl, (h.toCore.place hl).1, by omega, fun offset bytes =>
    ⟨⟨_, checkBuffer_exact h.toCore hl, ?_⟩, copiesFlat h.toCore hl hp, copiesNothing⟩⟩
  rw [decide_eq_true_eq, hsize]
  constructor
  · rintro ⟨hin, hrest⟩
    exact ⟨by omega, hrest⟩
  · rintro ⟨hin, hrest⟩
    exact ⟨by omega, hrest⟩

/-- A buffer of 6000 bytes in a mapping of two pages. -/
def twoPageBuffer : BinderAlloc :=
  (do
    let (_, alloc) ← binderAllocMmapHandler (.unbalanced BufId) binderAllocInit twoPages true (some 1)
    let (_, alloc) ← alloc.exec (.unbalanced BufId) (.newBuf plenty (some 2) 6000 0 0 false)
    some alloc).getD binderAllocInit

theorem twoPageBuffer_reach : (allocSys (.unbalanced BufId)).Reach twoPageBuffer :=
  Sys.Reach.next (.init ⟨twoPages, 1, twoPages_wellFormed, rfl⟩)
    (a := AllocOp.newBuf plenty (some 2) 6000 0 0 false)
    ⟨⟨by decide, by decide, by decide, by decide⟩, none, rfl⟩

/-- A copy that goes over the end of the first page, and one that would wrap. -/
theorem copies_flat_twoPageBuffer : ∃ b ∈ twoPageBuffer.buffers, b.id = 1 ∧
    CopiesFlat twoPageBuffer b 4092 1000 ∧ CopiesNothing twoPageBuffer b 8 (2 ^ 64 - 4) := by
  have hinv := (allocSys_inv twoPageBuffer_reach).1
  obtain ⟨n, hn, -, -, hcopy⟩ := copies_flat hinv List.mem_cons_self
    ((allocSys_backed twoPageBuffer_reach).1 _ List.mem_cons_self rfl)
  exact ⟨_, List.mem_cons_self, rfl, (hcopy 4092 1000).2.1 (by decide +kernel),
    (hcopy 8 (2 ^ 64 - 4)).2.2 (by decide +kernel)⟩

end Redroid.Binder
