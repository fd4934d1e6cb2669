import Redroid.Binder.Copy
import Redroid.Binder.Scatter

/-!
# The sizes of a transaction

Three places compute the layout of a buffer from `data_size`, `offsets_size` and
`extra_buffers_size`: `binder_alloc_new_buf_locked` the size of the request, `binder_transaction`
the bounds of the regions (`Request.frame`), and `binder_free_buf_locked` the size of the contents
(`contentSize`). They agree, and a request is refused iff its size, in exact arithmetic, is too
large for a `size_t` (`newBuf_layout`).
-/

namespace Redroid.Binder

/-- `x` rounded up to `sizeof(void *)`, in exact arithmetic. -/
def roundUp (x : Nat) : Nat := (x + (sizeofPtr - 1)) / sizeofPtr * sizeofPtr

/-- The size of the contents, in exact arithmetic. -/
def exactSize (dataSize offsetsSize extraBuffersSize : Nat) : Nat :=
  roundUp dataSize + roundUp offsetsSize + roundUp extraBuffersSize

/-- `t->buffer->transaction = t` -/
def setTransaction (alloc : BinderAlloc) (id : BufId) (t : Nat) : BinderAlloc :=
  { alloc with buffers := alloc.buffers.map fun b =>
      if b.id = id then { b with transaction := some t } else b }

section Sizes

variable {d o e x : Nat}

/-- `ALIGN` either rounds up or wraps to zero. -/
theorem alignPtr_cases (hx : x < 2 ^ 64) :
    (roundUp x < 2 ^ 64 ∧ alignPtr x = roundUp x) ∨ (roundUp x = 2 ^ 64 ∧ alignPtr x = 0) := by
  unfold roundUp alignPtr sizeofPtr
  omega

theorem le_roundUp : x ≤ roundUp x ∧ roundUp x < x + 8 ∧ roundUp x % 8 = 0 := by
  unfold roundUp sizeofPtr
  omega

/-- One sum of two aligned sizes with the comparisons after it: they see a wrap of either `ALIGN`
and of the sum. -/
theorem addSize_checked {s : Nat} (hs : s < 2 ^ 64) (hs8 : s % 8 = 0) (hx : x < 2 ^ 64) :
    (2 ^ 64 ≤ s + roundUp x ∧ (addSize s (alignPtr x) < s ∨ addSize s (alignPtr x) < x)) ∨
      (s + roundUp x < 2 ^ 64 ∧ addSize s (alignPtr x) = s + roundUp x) := by
  have hr := le_roundUp (x := x)
  unfold addSize
  rcases alignPtr_cases hx with ⟨hlt, heq⟩ | ⟨hwrap, heq⟩ <;> omega

/-- The size of a request is the exact one, and it is refused iff that is too large. -/
theorem requestSize_exact (hd : d < 2 ^ 64) (ho : o < 2 ^ 64) (he : e < 2 ^ 64) :
    (2 ^ 64 ≤ exactSize d o e ∧ requestSize d o e = .error .EINVAL) ∨
      (exactSize d o e < 2 ^ 64 ∧ requestSize d o e = .ok (exactSize d o e)) := by
  have hrd := le_roundUp (x := d)
  have hro := le_roundUp (x := o)
  have hre := le_roundUp (x := e)
  simp only [requestSize, exactSize]
  rcases alignPtr_cases hd with ⟨hlt, heq⟩ | ⟨hwrap, heq⟩
  · rw [heq]
    rcases addSize_checked hlt hrd.2.2 ho with ⟨hbig, hsmall⟩ | ⟨hfit, hsum⟩
    · left
      refine ⟨by omega, if_pos ?_⟩
      -- a wrapped sum is below `ALIGN(data_size)` by a multiple of 8, so below `data_size`
      have hmod : addSize (roundUp d) (alignPtr o) % 8 = 0 :=
        addSize_mod hrd.2.2 (alignPtr_mod o)
      omega
    · rw [hsum, if_neg (by omega)]
      rcases addSize_checked hfit (by omega) he with ⟨hbig, hsmall⟩ | ⟨hfit', hsum'⟩
      · exact .inl ⟨hbig, if_pos hsmall⟩
      · rw [hsum', if_neg (by omega)]
        exact .inr ⟨hfit', rfl⟩
  · left
    refine ⟨by omega, if_pos (.inl ?_)⟩
    have hlt : addSize 0 (alignPtr o) < 2 ^ 64 := Nat.mod_lt _ (by decide)
    have hmod : addSize 0 (alignPtr o) % 8 = 0 := addSize_mod (by decide) (alignPtr_mod o)
    rw [heq]
    omega

end Sizes

section NewBuf

variable {rb : RbOps BufId} {env : PageEnv} {kzalloc : Option BufId} {alloc alloc' : BinderAlloc}
  {x y : List BinderBuffer} {b : BinderBuffer} {d o e : Nat} {isAsync : Bool}

theorem binderUpdatePageRange_errno {start stop : Nat} {pages : Pages} {err : Errno}
    (h : binderUpdatePageRange env alloc start stop = (some err, pages)) : err ≠ .EINVAL := by
  unfold binderUpdatePageRange at h
  split at h
  · cases h
  dsimp only at h
  split at h
  · cases h
    decide
  split at h
  · cases h
  · cases h
    split <;> decide

/-- Only the sizes make the allocation fail with `EINVAL`. -/
theorem newBuf_einval (hv : alloc.vma = true)
    (h : binderAllocNewBufLocked rb env kzalloc alloc d o e isAsync = some (.error .EINVAL, alloc')) :
    requestSize d o e = .error .EINVAL := by
  unfold binderAllocNewBufLocked at h
  rw [if_neg (by simp [hv])] at h
  split at h
  · rename_i hreq
    cases h
    exact hreq
  split at h
  · cases h
  dsimp only at h
  split at h
  · cases h
  · cases h
  obtain ⟨⟨_, _, _⟩, -, h⟩ := Option.bind_eq_some_iff.mp h
  obtain ⟨_, -, h⟩ := Option.bind_eq_some_iff.mp h
  dsimp only at h
  split at h
  · rename_i hup
    cases h
    exact absurd rfl (binderUpdatePageRange_errno hup)
  split at h
  · split at h
    · cases h
    · obtain ⟨_, -, h⟩ := Option.bind_eq_some_iff.mp h
      obtain ⟨_, -, h⟩ := Option.bind_eq_some_iff.mp h
      cases h
  · obtain ⟨_, -, h⟩ := Option.bind_eq_some_iff.mp h
    cases h

theorem setTransaction_buffers {t : Nat} (hl : alloc.buffers = x ++ b :: y)
    (hids : (alloc.buffers.map (·.id)).Nodup) :
    (setTransaction alloc b.id t).buffers = x ++ { b with transaction := some t } :: y := by
  rw [hl, List.map_append, List.map_cons, List.nodup_append] at hids
  obtain ⟨-, hy, hxy⟩ := hids
  have hx : ∀ c ∈ x, (if c.id = b.id then { c with transaction := some t } else c) = c := fun c hc =>
    if_neg (hxy c.id (List.mem_map_of_mem hc) b.id List.mem_cons_self)
  have hy : ∀ c ∈ y, (if c.id = b.id then { c with transaction := some t } else c) = c := fun c hc =>
    if_neg fun he => (List.nodup_cons.mp hy).1 (List.mem_map.mpr ⟨c, hc, he⟩)
  simp only [setTransaction, hl, List.map_append, List.map_cons, if_true, List.map_congr_left hx,
    List.map_congr_left hy, List.map_id']

/-- What `check_buffer` accepts while the buffer is being built: all that is inside it. -/
theorem checkBuffer_building {t offset bytes : Nat} (h : Core alloc) (hl : alloc.buffers = x ++ b :: y)
    (hf : b.free = false) (ha : b.allowUserFree = false) (ho : offset % 4 = 0)
    (hin : b.userData + offset + bytes ≤ endOf BinderBuffer.userData alloc.stop y) :
    checkBuffer (setTransaction alloc b.id t) b.id offset bytes = some true := by
  have hl' := setTransaction_buffers hl h.ids (t := t)
  have hbusy : b.free = true → (some t : Option Nat) = none := fun hfree => by
    rw [hf] at hfree
    cases hfree
  have hcore : Core (setTransaction alloc b.id t) := by
    refine h.replace hl ?_ ?_ ?_ ?_ hl' rfl rfl
    · rfl
    · rfl
    · exact hbusy
    · exact (h.size hl).2.1
  refine (checkBuffer_exact hcore hl').trans ?_
  exact congrArg some (decide_eq_true ⟨hin, ho, hf, .inl ha⟩)

end NewBuf

/-- The regions of a buffer of `n` bytes: the data, the offsets and the scatter-gather area are in
this order, without overlap, and inside the buffer. -/
structure LayoutOk (tr : Scatter.Request) (F : Scatter.Frame) (n : Nat) : Prop where
  data : tr.dataSize.toNat ≤ F.offStart
  offsets : F.offEnd = F.offStart + tr.offsetsSize.toNat
  sg : F.offEnd ≤ F.sgStart
  stop : F.sgEnd = F.sgStart + tr.buffersSize.toNat
  fits : F.sgEnd ≤ n
  aligned : F.offStart % 8 = 0 ∧ F.sgStart % 8 = 0

/-- The regions in exact arithmetic. -/
theorem Scatter.Request.layoutOk {tr : Scatter.Request} {userData : UInt64} {n : Nat}
    (h : exactSize tr.dataSize.toNat tr.offsetsSize.toNat tr.buffersSize.toNat < 2 ^ 64)
    (hn : exactSize tr.dataSize.toNat tr.offsetsSize.toNat tr.buffersSize.toNat ≤ n) :
    LayoutOk tr (tr.frame userData n) n := by
  have hd := le_roundUp (x := tr.dataSize.toNat)
  have ho := le_roundUp (x := tr.offsetsSize.toNat)
  have he := le_roundUp (x := tr.buffersSize.toNat)
  unfold exactSize at h hn
  have hstart : alignPtr tr.dataSize.toNat = roundUp tr.dataSize.toNat := by
    rcases alignPtr_cases tr.dataSize.toNat_lt with h₁ | h₁ <;> omega
  have hend : addSize (roundUp tr.dataSize.toNat) tr.offsetsSize.toNat =
      roundUp tr.dataSize.toNat + tr.offsetsSize.toNat := addSize_eq (by omega)
  have hsg : alignPtr (roundUp tr.dataSize.toNat + tr.offsetsSize.toNat) =
      roundUp tr.dataSize.toNat + roundUp tr.offsetsSize.toNat := by
    have hr := le_roundUp (x := roundUp tr.dataSize.toNat + tr.offsetsSize.toNat)
    rcases alignPtr_cases (x := roundUp tr.dataSize.toNat + tr.offsetsSize.toNat) (by omega)
      with h₁ | h₁ <;> omega
  have hsgEnd : addSize (roundUp tr.dataSize.toNat + roundUp tr.offsetsSize.toNat)
      tr.buffersSize.toNat =
      roundUp tr.dataSize.toNat + roundUp tr.offsetsSize.toNat + tr.buffersSize.toNat :=
    addSize_eq (by omega)
  have hframe : tr.frame userData n = ⟨userData.toNat, n, tr.dataSize.toNat,
      roundUp tr.dataSize.toNat, roundUp tr.dataSize.toNat + tr.offsetsSize.toNat,
      roundUp tr.dataSize.toNat + roundUp tr.offsetsSize.toNat,
      roundUp tr.dataSize.toNat + roundUp tr.offsetsSize.toNat + tr.buffersSize.toNat⟩ := by
    simp only [Scatter.Request.frame, hstart, hend, hsg, hsgEnd]
  rw [hframe]
  exact ⟨hd.1, rfl, by dsimp only; omega, rfl, by dsimp only; omega, hd.2.2, by dsimp only; omega⟩

/-- The copies to and from a buffer that is being built. -/
def Copies (tr : Scatter.Request) (F : Scatter.Frame) (alloc : BinderAlloc) (id : BufId) : Prop :=
  checkBuffer alloc id 0 tr.dataSize.toNat = some true ∧
    checkBuffer alloc id F.offStart tr.offsetsSize.toNat = some true ∧
    ∀ offset bytes, offset % 4 = 0 → offset + bytes ≤ F.offEnd →
      checkBuffer alloc id offset bytes = some true

/-- An allocated buffer with space for the contents has the regions of the request. -/
theorem Core.layout {alloc : BinderAlloc} {x y : List BinderBuffer} {b : BinderBuffer}
    {tr : Scatter.Request} (h : Core alloc) (hl : alloc.buffers = x ++ b :: y)
    (hf : b.free = false) (ha : b.allowUserFree = false)
    (hlt : exactSize tr.dataSize.toNat tr.offsetsSize.toNat tr.buffersSize.toNat < 2 ^ 64)
    (hfit : b.userData + exactSize tr.dataSize.toNat tr.offsetsSize.toNat tr.buffersSize.toNat ≤
      endOf BinderBuffer.userData alloc.stop y) :
    ∃ n, alloc.binderAllocBufferSize b.id = some n ∧
      LayoutOk tr (tr.frame (.ofNat b.userData) n) n ∧
      ∀ t, Copies tr (tr.frame (.ofNat b.userData) n) (setTransaction alloc b.id t) b.id := by
  obtain ⟨hsz, hlen, -⟩ := h.size hl
  have hlayout : LayoutOk tr (tr.frame (.ofNat b.userData) (alloc.sizeBefore b y))
      (alloc.sizeBefore b y) := tr.layoutOk hlt (by omega)
  have hdata := hlayout.data
  have hoff := hlayout.offsets
  have hsg := hlayout.sg
  have hstop := hlayout.stop
  have hin := hlayout.fits
  have ho8 := hlayout.aligned.1
  refine ⟨_, h.bufferSize hl, hlayout, fun t => ⟨?_, ?_, fun offset bytes ho hle => ?_⟩⟩
  · exact checkBuffer_building h hl hf ha (by decide) (by omega)
  · exact checkBuffer_building h hl hf ha (by omega) (by omega)
  · exact checkBuffer_building h hl hf ha ho (by omega)

/-- **The sizes of a transaction cannot be fooled**: an allocation is refused with `EINVAL` iff the
exact size is too large, and otherwise the regions that `binder_transaction` derives from the sizes
are in order inside the buffer, every copy to or from the data and the offsets passes `check_buffer`
(with `t->buffer->transaction` set), and `binder_free_buf_locked` finds the size of the request. -/
theorem newBuf_layout (rb : RbOps BufId) (env : PageEnv) (kzalloc : Option BufId)
    {alloc : BinderAlloc} (h : Inv alloc) (hv : alloc.vma = true)
    (hk : ∀ new ∈ kzalloc, new ∉ alloc.buffers.map (·.id)) (tr : Scatter.Request) (isAsync : Bool) :
    ∃ r alloc', binderAllocNewBufLocked rb env kzalloc alloc tr.dataSize.toNat tr.offsetsSize.toNat
        tr.buffersSize.toNat isAsync = some (r, alloc') ∧
      (r = .error .EINVAL ↔
        2 ^ 64 ≤ exactSize tr.dataSize.toNat tr.offsetsSize.toNat tr.buffersSize.toNat) ∧
      ∀ id, r = .ok id → ∃ b ∈ alloc'.buffers, b.id = id ∧ ∃ n,
        alloc'.binderAllocBufferSize id = some n ∧
        LayoutOk tr (tr.frame (.ofNat b.userData) n) n ∧
        (∀ t, Copies tr (tr.frame (.ofNat b.userData) n) (setTransaction alloc' id t) id) ∧
        requestSize tr.dataSize.toNat tr.offsetsSize.toNat tr.buffersSize.toNat = .ok b.contentSize := by
  have hspec : NewBufOk alloc tr.dataSize.toNat tr.offsetsSize.toNat tr.buffersSize.toNat isAsync _ :=
    binderAllocNewBufLocked_spec rb env kzalloc h hk
  obtain ⟨r, alloc', heq, hinv, hsame, -, hnew⟩ := hspec
  have hexact := requestSize_exact tr.dataSize.toNat_lt tr.offsetsSize.toNat_lt tr.buffersSize.toNat_lt
  refine ⟨r, alloc', heq, ⟨?_, ?_⟩, ?_⟩
  · rintro rfl
    have hreq := newBuf_einval hv heq
    rcases hexact with ⟨hbig, -⟩ | ⟨-, hok⟩
    · exact hbig
    · rw [hreq] at hok
      cases hok
  · intro hbig
    rcases hexact with ⟨-, hreq⟩ | ⟨hsmall, -⟩
    · simp only [binderAllocNewBufLocked, hv, hreq] at heq
      cases heq
      rfl
    · omega
  · rintro id rfl
    obtain ⟨⟨size, hreq, -, -⟩, x, b, y, rest, -, rfl, -, hl, -, hend⟩ := hnew id rfl
    rcases hexact with ⟨-, herr⟩ | ⟨hsmall, hok⟩
    · rw [herr] at hreq
      cases hreq
    rw [hok] at hreq
    cases hreq
    have hstop : alloc'.stop = alloc.stop := by simp only [BinderAlloc.stop, hsame.1, hsame.2.1]
    have hfit := hend _ hok
    rw [← hstop] at hfit
    obtain ⟨n, hn, hlayout, hcopies⟩ := hinv.toCore.layout hl rfl rfl hsmall
      (by rw [hfit]; exact Nat.add_le_add_left (Nat.le_max_left _ _) _)
    refine ⟨b.taken tr.dataSize.toNat tr.offsetsSize.toNat tr.buffersSize.toNat isAsync,
      by rw [hl]; simp, rfl, n, hn, hlayout, hcopies, ?_⟩
    rw [hok, (requestSize_ok hok).1]
    rfl

/-- In a mapping of two pages: 1000 bytes of data with two offsets, and a size that wraps. -/
theorem newBuf_layout_twoPages : ∃ alloc, (allocSys (.unbalanced BufId)).Reach alloc ∧
    (∃ id alloc' b n, binderAllocNewBufLocked (.unbalanced BufId) plenty (some 2) alloc 1000 16 24 false =
      some (.ok id, alloc') ∧ LayoutOk ⟨1000, 16, 24⟩ (Scatter.Request.frame ⟨1000, 16, 24⟩ b n) n) ∧
    ∃ alloc', binderAllocNewBufLocked (.unbalanced BufId) plenty (some 2) alloc
      (UInt64.toNat 0xffffffffffffffff) 16 24 false = some (.error .EINVAL, alloc') := by
  have h : (allocSys (.unbalanced BufId)).Reach _ :=
    .init ⟨twoPages, 1, twoPages_wellFormed, rfl⟩
  have hinv := (allocSys_inv h).1
  have hk : ∀ new ∈ some 2, new ∉ [BinderBuffer.zeroed 1 0x10000].map (·.id) := by decide
  obtain ⟨r, alloc', heq, -, hok⟩ := newBuf_layout (.unbalanced BufId) plenty (some 2) hinv rfl hk
    ⟨1000, 16, 24⟩ false
  obtain ⟨r', alloc'', heq', herr, -⟩ := newBuf_layout (.unbalanced BufId) plenty (some 2) hinv rfl hk
    ⟨0xffffffffffffffff, 16, 24⟩ false
  rw [herr.mpr (by decide +kernel)] at heq'
  have hr : r = .ok 1 := (Prod.mk.inj (Option.some.inj (heq.symm.trans rfl))).1
  obtain ⟨b, -, -, n, -, hlayout, -⟩ := hok 1 hr
  exact ⟨_, h, ⟨1, alloc', _, n, hr ▸ heq, hlayout⟩, alloc'', heq'⟩

end Redroid.Binder
