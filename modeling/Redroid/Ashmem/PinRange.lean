import Redroid.Ashmem.Shrink

/-!
# The pages of a pin request

`ashmem_pin_unpin` turns the `__u32` offset and length of a request into a first and a last page,
with 0 for the length "everything onward" (`pinInterval`).

* `Denotes`: the pages that a request stands for. `SmallTail`: the requests without a length that
  the code handles.
* `pinOk_iff`: an accepted request gets the pages that it stands for, exactly if it has a length or
  `SmallTail` holds.
* `Bounded`: over every run of such requests, the unpinned pages are pages of the area.
-/

namespace Redroid.Ashmem

/-- `pgstart` to `pgend` are the pages that the request stands for: there is one, all are pages of
the area, and they reach from the offset over the length, or to the end of the area. -/
structure Denotes (asma : AshmemArea) (pin : AshmemPin) (pgstart pgend : Nat) : Prop where
  nonempty : pgstart ≤ pgend
  inside : pgend < pageAlign asma.size / pageSize
  start : pgstart = pin.offset.toNat / pageSize
  onward : pin.len = 0 → pgend + 1 = pageAlign asma.size / pageSize
  length : pin.len ≠ 0 → pgend + 1 = (pin.offset.toNat + pin.len.toNat) / pageSize

/-- If the checks accept the request, it gets the pages that it stands for. -/
def PinOk (asma : AshmemArea) (pin : AshmemPin) : Prop :=
  ∀ pgstart pgend, pinInterval asma pin = some (pgstart, pgend) → Denotes asma pin pgstart pgend

/-- A request without a length, from a page that is not past the size in 32 bits: the area is
smaller than 4 GiB and the offset is not its end. -/
def SmallTail (asma : AshmemArea) (pin : AshmemPin) : Prop :=
  pin.len = 0 → pin.offset.toNat % pageSize = 0 →
    pin.offset.toNat ≤ pageAlign asma.size % 2 ^ 32 →
    pageAlign asma.size < 2 ^ 32 ∧ pin.offset.toNat ≠ pageAlign asma.size

/-- The size of an area that has a backing file. -/
def SizeOk (size : Nat) : Prop := 0 < size ∧ size ≤ 2 ^ 64 - pageSize

instance (asma : AshmemArea) (pin : AshmemPin) : Decidable (SmallTail asma pin) :=
  inferInstanceAs (Decidable (_ → _ → _ → _))

variable {asma : AshmemArea} {pin : AshmemPin} {lo hi : Nat}

theorem or_mod_pageSize (a b : Nat) :
    (a ||| b) % pageSize = 0 ↔ a % pageSize = 0 ∧ b % pageSize = 0 := by
  rw [show pageSize = 2 ^ 12 from rfl, Nat.or_mod_two_pow, Nat.or_eq_zero_iff]

/-- The size in pages: positive, and less than `2 ^ 52`. -/
theorem SizeOk.pageAlign (h : SizeOk asma.size) :
    ∃ n, 0 < n ∧ n < 2 ^ 52 ∧ pageAlign asma.size = n * pageSize := by
  obtain ⟨h0, h1⟩ := h
  refine ⟨(asma.size + (pageSize - 1)) / pageSize, ?_, ?_, ?_⟩
  · unfold pageSize at *; omega
  · unfold pageSize at *; omega
  · unfold Redroid.pageAlign
    rw [Nat.mod_eq_of_lt (by unfold pageSize at *; omega)]

/-- The accepted requests. -/
theorem pinInterval_eq_some : pinInterval asma pin = some (lo, hi) ↔
    pin.offset.toNat % pageSize = 0 ∧ pinLen asma pin % pageSize = 0 ∧
    pin.offset.toNat + pinLen asma pin < 2 ^ 32 ∧
    pin.offset.toNat + pinLen asma pin ≤ pageAlign asma.size ∧
    lo = pin.offset.toNat / pageSize ∧
    hi = (pin.offset.toNat / pageSize + pinLen asma pin / pageSize + (2 ^ 64 - 1)) % 2 ^ 64 := by
  have ho := pin.offset.isLt
  simp only [pinInterval, Option.ite_none_left_eq_some, Option.some.injEq, Prod.mk.injEq,
    not_not, or_mod_pageSize, eq_comm (a := _) (b := lo), eq_comm (b := hi)]
  constructor
  · rintro ⟨⟨h1, h2⟩, h3, h4, h5, h6⟩
    have hlt : pin.offset.toNat + pinLen asma pin < 2 ^ 32 := by omega
    rw [Nat.mod_eq_of_lt hlt] at h4
    exact ⟨h1, h2, hlt, by omega, h5, h6⟩
  · rintro ⟨h1, h2, h3, h4, h5, h6⟩
    exact ⟨⟨h1, h2⟩, by omega, by rw [Nat.mod_eq_of_lt h3]; omega, h5, h6⟩

/-- The length of a request without one, from a page that is not past the size in 32 bits. -/
theorem pinLen_onward (hlen : pin.len = 0) :
    pin.offset.toNat + pinLen asma pin < 2 ^ 32 ↔
      pin.offset.toNat ≤ pageAlign asma.size % 2 ^ 32 := by
  have ho := pin.offset.isLt
  rw [pinLen, if_pos hlen]
  omega

theorem pinLen_onward_eq (hlen : pin.len = 0)
    (ho : pin.offset.toNat ≤ pageAlign asma.size % 2 ^ 32) :
    pinLen asma pin = pageAlign asma.size % 2 ^ 32 - pin.offset.toNat := by
  have := pin.offset.isLt
  rw [pinLen, if_pos hlen]
  omega

/-- A request with a length. -/
theorem pinOk_of_len (hlen : pin.len ≠ 0) : PinOk asma pin := by
  intro lo hi h
  have hne : pin.len.toNat ≠ 0 := by simpa [BitVec.toNat_eq] using hlen
  obtain ⟨h1, h2, h3, h4, hlo, hhi⟩ := pinInterval_eq_some.mp h
  rw [pinLen, if_neg hlen] at h2 h3 h4 hhi
  unfold pageSize at *
  constructor
  · omega
  · unfold pageSize; omega
  · exact hlo
  · exact fun h0 => absurd h0 hlen
  · unfold pageSize; omega

/-- A request without a length, at most at the size in 32 bits: it is accepted, and gets the pages
up to that size. -/
theorem pinInterval_onward (hs : SizeOk asma.size) (hlen : pin.len = 0)
    (ha : pin.offset.toNat % pageSize = 0)
    (ho : pin.offset.toNat ≤ pageAlign asma.size % 2 ^ 32) :
    pinInterval asma pin = some (pin.offset.toNat / pageSize,
      (pageAlign asma.size % 2 ^ 32 / pageSize + (2 ^ 64 - 1)) % 2 ^ 64) := by
  obtain ⟨n, -, -, hn⟩ := hs.pageAlign
  have hl := pinLen_onward_eq hlen ho
  rw [hn] at ho hl ⊢
  refine pinInterval_eq_some.mpr ⟨ha, ?_, (pinLen_onward hlen).mpr (hn ▸ ho), ?_, rfl, ?_⟩
  · rw [hl]; unfold pageSize at *; omega
  · rw [hl, hn]; unfold pageSize at *; omega
  · rw [hl]; unfold pageSize at *; omega

/-- An accepted request gets the pages that it stands for, exactly if it has a length or the code
can compute one. -/
theorem pinOk_iff (hs : SizeOk asma.size) : PinOk asma pin ↔ SmallTail asma pin := by
  obtain ⟨n, h0, h1, hn⟩ := hs.pageAlign
  constructor
  · intro h hlen ha ho
    have hd := h _ _ (pinInterval_onward hs hlen ha ho)
    have h2 := hd.nonempty
    have h3 := hd.inside
    have h4 := hd.onward hlen
    rw [hn] at *
    unfold pageSize at *
    omega
  · intro h
    by_cases hlen : pin.len = 0
    · intro lo hi hp
      have hacc := pinInterval_eq_some.mp hp
      have ho := (pinLen_onward hlen).mp hacc.2.2.1
      obtain ⟨hlt, hne⟩ := h hlen hacc.1 ho
      rw [pinInterval_onward hs hlen hacc.1 ho] at hp
      simp only [Option.some.injEq, Prod.mk.injEq] at hp
      obtain ⟨rfl, rfl⟩ := hp
      have ha := hacc.1
      rw [Nat.mod_eq_of_lt hlt] at ho ⊢
      constructor
      · rw [hn] at *; unfold pageSize at *; omega
      · rw [hn] at *; unfold pageSize at *; omega
      · rfl
      · rw [hn] at *; unfold pageSize at *; omega
      · exact absurd hlen
    · exact pinOk_of_len hlen

/-! ## Runs -/

/-- The kernel maps whole pages, and a request on an area with a backing file has a length or is
as `SmallTail` says. -/
def RequestOk (s : Conc) : Act → Prop
  | .mmap _ _ vma => vma.WellFormed
  | .run t => ∀ a cmd pin range, s.pc t = .body a cmd pin range →
    ∀ asma ∈ s.shared.areas a, asma.file ≠ none → SmallTail asma pin
  | _ => True

/-- An area with a backing file has a size that `PAGE_ALIGN` does not wrap; the pages that are
unpinned are pages of the area. -/
structure Bounded (s : Conc) : Prop where
  size : ∀ a, ∀ asma ∈ s.shared.areas a, asma.size < 2 ^ 64
  file : ∀ a, ∀ asma ∈ s.shared.areas a, asma.file ≠ none → SizeOk asma.size
  unpinned : ∀ a, ∀ asma ∈ s.shared.areas a, ∀ p, s.unpinned a p →
    p < pageAlign asma.size / pageSize

section Runs

variable {v : Nat} {s s' : Conc} {x : Act} {a : AreaId} {cmd : PinCmd} {range : RangeId}
  {ret : Except Errno Nat} {S S' : Shared}

/-- The areas keep their size and file, and no page becomes unpinned. -/
theorem Bounded.same (h : Bounded s)
    (ha : ∀ a, ∀ asma' ∈ s'.shared.areas a, ∃ asma ∈ s.shared.areas a,
      asma'.size = asma.size ∧ asma'.file = asma.file)
    (hu : ∀ a p, s'.unpinned a p → s.unpinned a p) : Bounded s' := by
  refine ⟨fun a asma' h' => ?_, fun a asma' h' => ?_, fun a asma' h' p hp => ?_⟩ <;>
    obtain ⟨asma, hm, hsize, hfile⟩ := ha a asma' h' <;> rw [hsize]
  · exact h.size a asma hm
  · rw [hfile]; exact h.file a asma hm
  · exact h.unpinned a asma hm p (hu a p hp)

theorem ashmemPinUnpin_shared (h : ashmemPinUnpin S a asma cmd pin range = some (ret, S')) :
    S' = S ∨ ∃ l st, S' = S.setList a asma l st := by
  unfold ashmemPinUnpin at h
  split at h
  · cases h; exact .inl rfl
  split at h
  · cases h; exact .inl rfl
  cases cmd with
  | pin =>
    simp only [Shared.pin, bind, Option.map_eq_some_iff, Option.bind_eq_some_iff] at h
    obtain ⟨_, ⟨⟨_, l, st⟩, -, he⟩, h⟩ := h
    cases he
    cases h
    exact .inr ⟨l, st, rfl⟩
  | unpin =>
    simp only [Shared.unpin, bind, Option.map_eq_some_iff, Option.bind_eq_some_iff] at h
    obtain ⟨_, ⟨⟨_, l, st⟩, -, he⟩, h⟩ := h
    cases he
    cases h
    exact .inr ⟨l, st, rfl⟩
  | getPinStatus => cases h; exact .inl rfl

/-- A backing file is made for an area that has a page: the mapping is not longer than it. -/
theorem sizeOk_of_mmap {env : MmapEnv} {vma : Vma} (hv : vma.WellFormed) (hs : asma.size < 2 ^ 64)
    (hold : asma.file ≠ none → SizeOk asma.size)
    (hf : (ashmemMmap v env asma vma).2.1.file ≠ none) : SizeOk asma.size := by
  by_cases hfile : asma.file = none
  · have hlen : asma.size ≠ 0 ∧ vma.vmEnd - vma.vmStart ≤ pageAlign asma.size := by
      unfold ashmemMmap at hf
      split at hf
      · exact absurd hfile hf
      split at hf
      · exact absurd hfile hf
      · rename_i h0 h1
        exact ⟨h0, by omega⟩
    obtain ⟨h0, h1⟩ := hlen
    have hlt := hv.lt
    unfold pageAlign SizeOk pageSize at *
    omega
  · exact hold hfile

theorem ashmemMmap_size (v : Nat) (env : MmapEnv) (asma : AshmemArea) (vma : Vma) :
    (ashmemMmap v env asma vma).2.1.size = asma.size := by
  have hfile : ∀ (asma : AshmemArea) (vma : Vma), (ashmemMmapFile env asma vma).2.1 = asma :=
    fun asma vma => by unfold ashmemMmapFile; split <;> rfl
  unfold ashmemMmap
  split
  · rfl
  split
  · rfl
  split
  · rfl
  split
  · rw [hfile]
  split
  · rfl
  · rw [hfile]

/-- The body of an ioctl: the pages that it unpins are pages of the area. -/
theorem Bounded.run (h : Bounded s) (ha : asma ∈ s.shared.areas a)
    (heq : ashmemPinUnpin s.shared a asma cmd pin range = some (ret, S))
    (hr : asma.file ≠ none → SmallTail asma pin) (t : Tid) :
    Bounded { (s.requested a asma cmd pin).goto t .idle with shared := S, mutex := none } := by
  -- the areas keep their size and file
  have hareas : ∀ b, ∀ asma' ∈ S.areas b, ∃ asma ∈ s.shared.areas b,
      asma'.size = asma.size ∧ asma'.file = asma.file := by
    intro b asma' hb
    rcases ashmemPinUnpin_shared heq with rfl | ⟨l, st, rfl⟩
    · exact ⟨asma', hb, rfl, rfl⟩
    · rcases Shared.mem_setList.mp hb with ⟨rfl, rfl⟩ | ⟨-, hb⟩
      · exact ⟨asma, ha, rfl, rfl⟩
      · exact ⟨asma', hb, rfl, rfl⟩
  -- an unpinned page was unpinned before, or it is one of the request
  have hpages : ∀ b p, (s.requested a asma cmd pin).unpinned b p →
      s.unpinned b p ∨ b = a ∧ p < pageAlign asma.size / pageSize := by
    intro b p hp
    unfold Conc.requested at hp
    split at hp
    · exact .inl hp
    rename_i hf
    have hfile : asma.file ≠ none := fun hn => hf (by simp [hn])
    split at hp
    · exact .inl hp
    rename_i lo hi hint
    have hden := (pinOk_iff (h.file a asma ha hfile)).mpr (hr hfile) lo hi hint
    cases cmd with
    | pin => exact .inl hp.1
    | unpin => exact hp.imp_right fun ⟨hb, _, h2⟩ => ⟨hb, h2.trans_lt hden.inside⟩
    | getPinStatus => exact .inl hp
  refine ⟨fun b asma' hb => ?_, fun b asma' hb => ?_, fun b asma' hb p hp => ?_⟩ <;>
    obtain ⟨asma₁, hm, hsize, hfile⟩ := hareas b asma' hb <;> rw [hsize]
  · exact h.size b asma₁ hm
  · rw [hfile]; exact h.file b asma₁ hm
  · rcases hpages b p hp with hold | ⟨rfl, hnew⟩
    · exact h.unpinned b asma₁ hm p hold
    · rw [Option.mem_def.mp ha] at hm
      cases hm
      exact hnew

theorem Bounded.step (h : Bounded s) (hd : Data s) (hr : RequestOk s x) (hst : Step v s x s') :
    Bounded s' := by
  have hsame : ∀ b, ∀ asma ∈ s.shared.areas b, ∃ asma₁ ∈ s.shared.areas b,
      asma.size = asma₁.size ∧ asma.file = asma₁.file := fun b asma hb => ⟨asma, hb, rfl, rfl⟩
  cases hst with
  | «open» mode hm =>
    refine ⟨fun b asma hb => ?_, fun b asma hb hf => ?_, fun b asma hb p hp => ?_⟩ <;>
      rcases Shared.mem_setArea.mp hb with ⟨rfl, rfl⟩ | ⟨-, hb⟩
    · exact Nat.two_pow_pos 64
    · exact h.size b asma hb
    · exact absurd rfl hf
    · exact h.file b asma hb hf
    · exact absurd hp (hd.new _ (Nat.le_refl _) p)
    · exact h.unpinned b asma hb p hp
  | @setSize a size asma asma' hm ha hs =>
    simp only [ashmemSetSize] at hs
    split at hs
    · rename_i hf
      cases hs
      have hf : asma.file = none := by simpa using hf
      refine ⟨fun b asma hb => ?_, fun b asma hb hf => ?_, fun b asma₁ hb p hp => ?_⟩ <;>
        rcases Shared.mem_setArea.mp hb with ⟨rfl, rfl⟩ | ⟨-, hb⟩
      · exact Nat.mod_lt _ (Nat.two_pow_pos 64)
      · exact h.size b asma hb
      · exact absurd ‹_› hf
      · exact h.file b asma hb hf
      · -- an area without a backing file has no unpinned page
        have hok := (hd.area b asma ha).2
        obtain ⟨r, hr, -⟩ := (hok.ghost p).mp hp
        rw [hok.file hf] at hr
        cases hr
      · exact h.unpinned b asma₁ hb p hp
    · cases hs
  | @mmap a env vma asma hm ha =>
    have hsize := ashmemMmap_size v env asma vma
    refine ⟨fun b asma hb => ?_, fun b asma hb hf => ?_, fun b asma hb p hp => ?_⟩ <;>
      rcases Shared.mem_setArea.mp hb with ⟨rfl, rfl⟩ | ⟨-, hb⟩
    · rw [hsize]; exact h.size b _ ha
    · exact h.size b asma hb
    · rw [hsize]; exact sizeOk_of_mmap hr (h.size b _ ha) (h.file b _ ha) hf
    · exact h.file b asma hb hf
    · rw [hsize]; exact h.unpinned b _ ha p hp
    · exact h.unpinned b asma hb p hp
  | release a hm ha hu =>
    exact h.same (fun b asma hb => hsame b asma (Shared.mem_release_areas.mp hb).2) fun _ _ => id
  | run t hp ha heq => exact h.run ha heq (hr _ _ _ _ hp _ ha) t
  | @take t nr ref rest asma range f hp hl hde hf =>
    obtain ⟨asma₁, r₁, hd₁, ha, -⟩ := hd.ok.deref ref (by simp [hl])
    rw [hde] at hd₁
    cases hd₁
    refine h.same (fun b asma₂ hb => ?_) fun _ _ => id
    rcases Shared.mem_setList.mp hb with ⟨rfl, rfl⟩ | ⟨-, hb⟩
    · exact ⟨asma, ha, rfl, rfl⟩
    · exact hsame b asma₂ hb
  | ioctl | lock | wake | shrink | takeNone | punchPage | punchEnd | decInflight | relock
  | relockDone | giveUp => exact h.same hsame fun _ _ => id

theorem concSys_bounded (h : (concSys v).ReachIf RequestOk s) : Ctl s ∧ Data s ∧ Bounded s := by
  refine h.inv (I := fun s => Ctl s ∧ Data s ∧ Bounded s) ?_ ?_
  · rintro s rfl
    obtain ⟨hc, hd⟩ := concSys_inv (v := v) (.init rfl)
    exact ⟨hc, hd, by simp [Conc.start], by simp [Conc.start], by simp [Conc.start]⟩
  · rintro s x s' ⟨hc, hd, hb⟩ hr hst
    refine ⟨hc.step hst, hd.step hc hst ?_, hb.step hd hr hst⟩
    rintro t a cmd pin range rfl hp asma ha hf ⟨lo, hi⟩ hint
    exact ((pinOk_iff (hb.file a asma ha hf)).mpr (hr a cmd pin range hp asma ha hf) lo hi
      hint).nonempty

end Runs

/-! ## The result -/

/-- Every range is a non-empty interval of pages of its area. -/
def RangesInside (s : Conc) : Prop :=
  ∀ a, ∀ asma ∈ s.shared.areas a, ∀ r ∈ asma.unpinnedList,
    r.pgstart ≤ r.pgend ∧ r.pgend < pageAlign asma.size / pageSize

/-- `ASHMEM_GET_PIN_STATUS`, if its body runs now on the pages `lo` to `hi`, reports
`ASHMEM_IS_UNPINNED` only if the last request on one of them has unpinned it. -/
def StatusSound (s : Conc) : Prop :=
  ∀ t a pin range, s.pc t = .body a .getPinStatus pin range → ∀ asma ∈ s.shared.areas a,
    SmallTail asma pin → ∀ lo hi, pinInterval asma pin = some (lo, hi) →
    ∀ S, ashmemPinUnpin s.shared a asma .getPinStatus pin range = some (.ok ashmemIsUnpinned, S) →
    ∃ p, lo ≤ p ∧ p ≤ hi ∧ s.unpinned a p

/-- **A pin request gets the pages that it stands for, exactly if it has a length or is as
`SmallTail` says.** In every run of such requests, every unpinned range is an interval of pages of
its area, and a page is reported unpinned only if a request has unpinned it. -/
theorem pinRequests_sound (v : Nat) :
    (∀ asma pin, SizeOk asma.size → (PinOk asma pin ↔ SmallTail asma pin)) ∧
    ∀ s, (concSys v).ReachIf RequestOk s → RangesInside s ∧ StatusSound s := by
  refine ⟨fun asma pin hs => pinOk_iff hs, fun s h => ?_⟩
  obtain ⟨-, hd, hb⟩ := concSys_bounded h
  constructor
  · intro a asma ha r hr
    have hne := (hd.ok.list a asma ha).desc.nonempty r hr
    have hu := ((hd.area a asma ha).2.ghost r.pgend).mpr ⟨r, hr, hne, Nat.le_refl _⟩
    exact ⟨hne, hb.unpinned a asma ha r.pgend hu⟩
  · intro t a pin range hp asma ha htail lo hi hint S heq
    simp only [ashmemPinUnpin, hint] at heq
    split at heq
    · cases heq
    rename_i hf
    have hfile : asma.file ≠ none := fun hn => hf (by simp [hn])
    have hle := ((pinOk_iff (hb.file a asma ha hfile)).mpr htail lo hi hint).nonempty
    simp only [Option.some.injEq, Prod.mk.injEq, Except.ok.injEq] at heq
    obtain ⟨p, hp, h1, h2⟩ :=
      (ashmemGetPinStatus_iff (hd.ok.list a asma ha).desc hle).mp heq.1
    exact ⟨p, h1, h2, ((hd.area a asma ha).2.ghost p).mpr hp⟩

/-- An area of the given size, with its backing file. -/
def areaOf (size : Nat) : AshmemArea :=
  { ashmemOpen 0 with size, file := some ⟨"dev/ashmem", size, 0⟩ }

theorem requestOk_plain (s : Conc) (x : Act) (h : x.plain = true) : RequestOk s x := by
  cases x with
  | run t => cases h
  | mmap a env vma =>
    obtain rfl : vma = ⟨0, 4096, 0⟩ := by simpa [Act.plain] using h
    exact ⟨by decide, by decide, by decide, by decide⟩
  | _ => trivial

/-- A request without a length gets the last page of two; and in a run with a page unpinned, its range is
inside the area, and the page that `ASHMEM_GET_PIN_STATUS` reports unpinned is. -/
theorem pinRequests_sound_lastPage :
    (PinOk (areaOf 8192) ⟨4096, 0⟩ ∧ pinInterval (areaOf 8192) ⟨4096, 0⟩ = some (1, 1)) ∧
    ∃ s, (concSys (kernelVersion 6 6 0)).ReachIf RequestOk s ∧
      s.pc 0 = .body 0 .getPinStatus firstPage 1 ∧
      s.shared.areas 0 = some { onePage with unpinnedList := [⟨0, 0, 0, 0, 0⟩] } ∧
      RangesInside s ∧ ∃ p, 0 ≤ p ∧ p ≤ 0 ∧ s.unpinned 0 p := by
  refine ⟨⟨((pinRequests_sound 0).1 _ _ (by unfold SizeOk; decide)).mpr (by decide), by decide⟩, ?_⟩
  have htail (asma : AshmemArea) : SmallTail asma firstPage := fun hlen => absurd hlen (by decide)
  obtain ⟨s, h, hs⟩ := reach_onePage_unpinned requestOk_plain
    fun s t hbody a cmd pin range hp asma ha hf => by
      obtain ⟨-, rfl⟩ := hbody a cmd pin range hp asma ha
      exact htail asma
  have hc := reach_call (t := 0) (a := 0) .getPinStatus firstPage requestOk_plain h (hs.idle 0) hs.mutex
    hs.inflight (by simp [hs.areas])
  have hb : (s.call 0 0 .getPinStatus firstPage).pc 0 = .body 0 .getPinStatus firstPage 1 :=
    hs.nextRange ▸ Conc.call_self ..
  obtain ⟨hin, hst⟩ := (pinRequests_sound _).2 _ hc
  exact ⟨_, hc, hb, hs.areas, hin, hst 0 0 firstPage 1 hb _ hs.areas (htail _) 0 0
    (pinInterval_onePage _) _ rfl⟩

/-- A request without a length at the end of a two-page area becomes the empty interval from 2 to
1: `ASHMEM_UNPIN` inserts it, and then the two pages are reported unpinned, although no request has
unpinned one. In an area of 4 GiB the length is cut to 0, and the interval ends at `SIZE_MAX`. -/
theorem pinInterval_pastEnd :
    ¬ PinOk (areaOf 8192) ⟨8192, 0⟩ ∧
    (∀ S, ashmemPinUnpin S 0 (areaOf 8192) .unpin ⟨8192, 0⟩ 7 = some (.ok 0,
      S.setList 0 (areaOf 8192) [⟨7, 0, 2, 1, 0⟩] ⟨none, lruAdd ⟨7, 0, 2, 1, 0⟩ S.lru⟩)) ∧
    (∀ S, ashmemPinUnpin S 0 { areaOf 8192 with unpinnedList := [⟨7, 0, 2, 1, 0⟩] } .getPinStatus
      ⟨0, 8192⟩ 8 = some (.ok ashmemIsUnpinned, S)) ∧
    ¬ PinOk (areaOf (2 ^ 32)) ⟨0, 0⟩ := by
  have hempty : pinInterval (areaOf 8192) ⟨8192, 0⟩ = some (2, 1) := by decide
  have hwhole : pinInterval (areaOf (2 ^ 32)) ⟨0, 0⟩ = some (0, 2 ^ 64 - 1) := by decide
  refine ⟨fun h => absurd (h _ _ hempty).nonempty (by decide), fun S => ?_, fun S => rfl,
    fun h => absurd (h _ _ hwhole).inside (by decide)⟩
  unfold ashmemPinUnpin
  rw [if_neg (by decide), hempty]
  simp only [Shared.unpin, ashmemUnpin]
  rw [show (areaOf 8192).unpinnedList = [] from rfl, ashmemUnpinFrom]
  rfl

end Redroid.Ashmem
