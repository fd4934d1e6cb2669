import Mathlib.Data.Set.Lattice
import Mathlib.Order.CompletePartialOrder
import Mathlib.Logic.Function.Basic
import Redroid.Ashmem.Pin

/-!
# The areas and the LRU list together

`Shared` is what `ashmem_mutex` protects: the open areas with their unpinned ranges, and the LRU
list through the ranges of all of them. The operations on it are `ashmem_pin`, `ashmem_unpin` and
`ashmem_get_pin_status` on one area, the part of `ashmem_shrink_scan` that takes the first range
of the LRU list, and the part of `ashmem_release` that deletes the ranges of an area.

* `Shared.Ok`: the invariant, and that each operation keeps it.
* `unpinned`, `purgedPages`: the pages of an area that are unpinned, and those of them in a range
  marked purged; what each operation does to these two sets.
* `pinSys_refines`: over every run, the operations act on the sets of unpinned pages as union,
  difference and intersection test, and `range_alloc` finds its preallocated range.
-/

namespace Redroid.Ashmem

/-- The open areas and the LRU list. -/
structure Shared where
  areas : AreaId → Option AshmemArea
  lru : Lru

/-- The pages on the `unpinned_list`. -/
def AshmemArea.unpinned (asma : AshmemArea) : Set Nat :=
  cover AshmemRange.pgstart AshmemRange.pgend asma.unpinnedList

/-- The pages in ranges that are marked purged. -/
def AshmemArea.purgedPages (asma : AshmemArea) : Set Nat :=
  cover AshmemRange.pgstart AshmemRange.pgend
    (asma.unpinnedList.filter fun r => r.purged != ashmemNotPurged)

namespace Shared

/-- The pages of the area `a` on its `unpinned_list`; none if `a` is not open. -/
def unpinned (S : Shared) (a : AreaId) : Set Nat := {p | ∃ asma ∈ S.areas a, p ∈ asma.unpinned}

/-- The area `a`, changed. -/
def setArea (S : Shared) (a : AreaId) (asma : AshmemArea) : Shared :=
  { S with areas := Function.update S.areas a (some asma) }

/-- The area `a` and the LRU list after a call on `a`. -/
def setList (S : Shared) (a : AreaId) (asma : AshmemArea) (list : List AshmemRange)
    (st : Pinning) : Shared :=
  { S.setArea a { asma with unpinnedList := list } with lru := st.lru }

/-- `ashmem_pin` on the area `a`. `range` is the preallocated range. -/
def pin (S : Shared) (a : AreaId) (asma : AshmemArea) (pgstart pgend : Nat) (range : RangeId) :
    Option (Nat × Shared) := do
  let (ret, list, st) ← ashmemPin a asma.unpinnedList pgstart pgend ⟨some range, S.lru⟩
  some (ret, S.setList a asma list st)

/-- `ashmem_unpin` on the area `a`. -/
def unpin (S : Shared) (a : AreaId) (asma : AshmemArea) (pgstart pgend : Nat) (range : RangeId) :
    Option (Nat × Shared) := do
  let (ret, list, st) ← ashmemUnpin a asma.unpinnedList pgstart pgend ⟨some range, S.lru⟩
  some (ret, S.setList a asma list st)

/-- The range that `ref` points to, with its area. -/
def deref (S : Shared) (ref : RangeRef) : Option (AshmemArea × AshmemRange) := do
  let asma ← S.areas ref.asma
  let range ← asma.unpinnedList.find? fun r => r.id == ref.id
  some (asma, range)

/-- `ashmem_shrink_scan`: the range is marked purged and leaves the LRU list. -/
def purge (S : Shared) (a : AreaId) (asma : AshmemArea) (range : AshmemRange) : Shared :=
  S.setList a asma
    (asma.unpinnedList.map fun r =>
      if r.id = range.id then { r with purged := ashmemWasPurged } else r)
    ⟨none, lruDel range S.lru⟩

/-- The loop of `ashmem_release` over the ranges of an area, and the area is gone. -/
def release (S : Shared) (a : AreaId) (asma : AshmemArea) : Shared where
  areas := Function.update S.areas a none
  lru := (asma.unpinnedList.foldl (fun st range => rangeDel range st) ⟨none, S.lru⟩).lru

/-! ## The invariant -/

/-- Each list is as `ListOk` says, and every entry of the LRU list points to a range. -/
structure Ok (S : Shared) : Prop where
  list : ∀ a, ∀ asma ∈ S.areas a, ListOk a asma.unpinnedList S.lru.list
  lru : ∀ ref ∈ S.lru.list, ∃ asma ∈ S.areas ref.asma, ref ∈ asma.unpinnedList.map AshmemRange.ref
  nodup : S.lru.list.Nodup

/-- The struct `id` is in no list: it can be preallocated. -/
def Unused (S : Shared) (id : RangeId) : Prop :=
  ∀ a, ∀ asma ∈ S.areas a, id ∉ asma.unpinnedList.map AshmemRange.id

variable {S : Shared} {a : AreaId} {asma : AshmemArea} {s e : Nat} {id : RangeId}

theorem Ok.fresh (h : S.Ok) (ha : asma ∈ S.areas a) (hid : S.Unused id) :
    Fresh a id asma.unpinnedList ⟨some id, S.lru⟩ := by
  refine ⟨rfl, hid a asma ha, fun hm => ?_⟩
  obtain ⟨asma', ha', hr⟩ := h.lru _ hm
  obtain ⟨r, hr, he⟩ := List.mem_map.mp hr
  simp only [AshmemRange.ref, RangeRef.mk.injEq] at he
  exact hid a asma' ha' (he.2 ▸ List.mem_map_of_mem hr)

theorem mem_setArea {b : AreaId} {asma₁ asma₂ : AshmemArea} :
    asma₂ ∈ (S.setArea a asma₁).areas b ↔
      (b = a ∧ asma₂ = asma₁) ∨ (b ≠ a ∧ asma₂ ∈ S.areas b) := by
  simp only [setArea]
  by_cases hab : b = a
  · subst hab
    simp [eq_comm]
  · simp [hab]

theorem mem_setList {b : AreaId} {asma₂ : AshmemArea} {l' : List AshmemRange} {st' : Pinning} :
    asma₂ ∈ (S.setList a asma l' st').areas b ↔
      (b = a ∧ asma₂ = { asma with unpinnedList := l' }) ∨ (b ≠ a ∧ asma₂ ∈ S.areas b) :=
  mem_setArea

theorem mem_release_areas {b : AreaId} {asma₂ : AshmemArea} :
    asma₂ ∈ (S.release a asma).areas b ↔ b ≠ a ∧ asma₂ ∈ S.areas b := by
  simp only [release]
  by_cases hab : b = a
  · subst hab
    simp
  · simp [hab]

/-- The area `a` is new, or changes without its list. -/
theorem Ok.setArea {asma' : AshmemArea} (h : S.Ok)
    (hl : ListOk a asma'.unpinnedList S.lru.list)
    (hk : ∀ asma ∈ S.areas a, asma.unpinnedList = asma'.unpinnedList) :
    (S.setArea a asma').Ok := by
  refine ⟨fun b asma₂ hb => ?_, fun ref hm => ?_, h.nodup⟩
  · rcases mem_setArea.mp hb with ⟨rfl, rfl⟩ | ⟨-, hb⟩
    · exact hl
    · exact h.list b asma₂ hb
  · obtain ⟨asma, ha, hr⟩ := h.lru ref hm
    by_cases hab : ref.asma = a
    · refine ⟨asma', mem_setArea.mpr (.inl ⟨hab, rfl⟩), ?_⟩
      rw [← hk asma (hab ▸ ha)]
      exact hr
    · exact ⟨asma, mem_setArea.mpr (.inr ⟨hab, ha⟩), hr⟩

/-- A call on `a` that replaces its list by `l'` and the LRU list accordingly. -/
theorem Ok.setList {l' : List AshmemRange} {st' : Pinning} (h : S.Ok) (ha : asma ∈ S.areas a)
    (hl : LruStep asma.unpinnedList l' ⟨some id, S.lru⟩ st') (hok : ListOk a l' st'.lru.list) :
    (S.setList a asma l' st').Ok := by
  have hlist := h.list a asma ha
  refine ⟨fun b asma' hb => ?_, fun ref hm => ?_, hok.nodup⟩
  · rcases mem_setList.mp hb with ⟨rfl, rfl⟩ | ⟨hab, hb⟩
    · exact hok
    · have hb' := h.list b asma' hb
      refine ⟨hb'.desc, hb'.bound, hb'.asma, hb'.ids, hok.nodup, fun r hr => ?_⟩
      -- the refs of another area are neither in the old list nor in the new one
      have hr' : ∀ x : AshmemRange, x.asma = a → x.ref ≠ r.ref := fun x hx he => by
        simp only [AshmemRange.ref, RangeRef.mk.injEq] at he
        exact hab ((hb'.asma r hr).symm.trans (he.1.symm.trans hx))
      rw [← hb'.onLru r hr]
      refine (hl _).trans ⟨?_, fun h => .inl ⟨h, fun hm => ?_⟩⟩
      · rintro (⟨h, -⟩ | ⟨x, hx, he, -⟩)
        · exact h
        · exact absurd he (hr' x (hok.asma x hx))
      · obtain ⟨x, hx, he⟩ := List.mem_map.mp hm
        exact hr' x (hlist.asma x hx) he
  · rcases (hl ref).mp hm with ⟨hm, hn⟩ | ⟨r, hr, rfl, -⟩
    · obtain ⟨asma', ha', hr⟩ := h.lru ref hm
      have hab : ref.asma ≠ a := fun he => by
        rw [he, Option.mem_def.mp ha] at ha'
        exact hn (Option.some.inj ha' ▸ hr)
      exact ⟨asma', mem_setList.mpr (.inr ⟨hab, ha'⟩), hr⟩
    · exact ⟨_, mem_setList.mpr (.inl ⟨hok.asma r hr, rfl⟩), List.mem_map_of_mem hr⟩

/-! ## The operations on the sets of pages -/

theorem unpinned_eq (ha : asma ∈ S.areas a) : S.unpinned a = asma.unpinned := by
  ext p
  simp only [unpinned, Option.mem_def.mp ha, Option.mem_some_iff, exists_eq_left', Set.mem_ofPred]

theorem unpinned_setList {l' : List AshmemRange} {st' : Pinning} :
    (S.setList a asma l' st').unpinned =
      Function.update S.unpinned a (cover AshmemRange.pgstart AshmemRange.pgend l') := by
  funext b
  by_cases hab : b = a
  · subst hab
    rw [Function.update_self]
    exact unpinned_eq (mem_setList.mpr (.inl ⟨rfl, rfl⟩))
  · rw [Function.update_of_ne hab]
    simp only [unpinned, Shared.setList, setArea, Function.update_of_ne hab]

theorem mem_purgedPages {p : Nat} : p ∈ asma.purgedPages ↔
    ∃ r ∈ asma.unpinnedList, r.purged ≠ ashmemNotPurged ∧ r.pgstart ≤ p ∧ p ≤ r.pgend := by
  simp [AshmemArea.purgedPages, mem_cover, and_assoc]

theorem purgedPages_subset : asma.purgedPages ⊆ asma.unpinned := fun _ hp => by
  obtain ⟨r, hr, -, h⟩ := mem_purgedPages.mp hp
  exact ⟨r, hr, h⟩

/-- `ashmem_pin`: the pages leave the list, with the status of the others unchanged, and the
result is `ASHMEM_NOT_PURGED` only if no page of them was purged. -/
theorem pin_spec (h : S.Ok) (ha : asma ∈ S.areas a) (hid : S.Unused id) (hse : s ≤ e) :
    ∃ ret l' st', S.pin a asma s e id = some (ret, S.setList a asma l' st') ∧
      (S.setList a asma l' st').Ok ∧
      PinPost a s e id asma.unpinnedList ⟨some id, S.lru⟩ ret l' st' ∧
      asma.purgedPages \ Set.Icc s e ⊆ { asma with unpinnedList := l' }.purgedPages ∧
      (ret = ashmemNotPurged → Disjoint asma.purgedPages (Set.Icc s e)) := by
  have hlist := h.list a asma ha
  obtain ⟨ret, l', st', heq, hpost⟩ := ashmemPin_spec (h.fresh ha hid) hlist hse
  refine ⟨ret, l', st', by simp [pin, heq], h.setList ha hpost.lru hpost.ok, hpost, ?_, ?_⟩
  · rintro p ⟨hp, hn⟩
    obtain ⟨r, hr, hpr, h1, h2⟩ := mem_purgedPages.mp hp
    have hp' : p ∈ cover AshmemRange.pgstart AshmemRange.pgend l' := by
      rw [hpost.cover]
      exact ⟨⟨r, hr, h1, h2⟩, hn⟩
    obtain ⟨r', hr', h1', h2'⟩ := hp'
    obtain ⟨x, hx, hxs, hxe, hxp, -⟩ := hpost.sub r' hr'
    have hxr : x = r := hlist.desc.eq_of_common hx hr (p := p) (by omega) (by omega) h1 h2
    exact mem_purgedPages.mpr ⟨r', hr', by rw [hxp, hxr]; exact hpr, h1', h2'⟩
  · intro hret
    rw [Set.disjoint_left]
    rintro p hp ⟨hs, he⟩
    obtain ⟨r, hr, hpr, h1, h2⟩ := mem_purgedPages.mp hp
    exact hpr (hpost.ret hret r hr (by omega) (by omega))

/-- `ashmem_unpin`: the pages join the list, and purged pages stay purged. -/
theorem unpin_spec (h : S.Ok) (ha : asma ∈ S.areas a) (hid : S.Unused id) (hse : s ≤ e)
    (hlt : e < 2 ^ 64) :
    ∃ l' st', S.unpin a asma s e id = some (0, S.setList a asma l' st') ∧
      (S.setList a asma l' st').Ok ∧
      UnpinPost a s e ashmemNotPurged id asma.unpinnedList ⟨some id, S.lru⟩ l' st' ∧
      asma.purgedPages ⊆ { asma with unpinnedList := l' }.purgedPages := by
  obtain ⟨l', st', heq, hpost⟩ := ashmemUnpin_spec (h.fresh ha hid) (h.list a asma ha) hse hlt
  refine ⟨l', st', by simp [unpin, heq], h.setList ha hpost.lru hpost.ok, hpost, ?_⟩
  intro p hp
  obtain ⟨r, hr, hpr, h1, h2⟩ := mem_purgedPages.mp hp
  obtain ⟨r', hr', hs, he, hkeep⟩ := hpost.keep r hr
  exact mem_purgedPages.mpr ⟨r', hr', hkeep hpr, by omega, by omega⟩

/-! ## Purge and release -/

theorem Ok.deref (h : S.Ok) (ref : RangeRef) (hm : ref ∈ S.lru.list) :
    ∃ asma r, S.deref ref = some (asma, r) ∧ asma ∈ S.areas ref.asma ∧ r ∈ asma.unpinnedList ∧
      r.ref = ref ∧ r.purged = ashmemNotPurged := by
  obtain ⟨asma, ha, hin⟩ := h.lru ref hm
  obtain ⟨x, hx, rfl⟩ := List.mem_map.mp hin
  have hlist := h.list _ asma ha
  cases hf : asma.unpinnedList.find? fun r => r.id == x.ref.id with
  | none => exact absurd (List.find?_eq_none.mp hf x hx) (by simp [AshmemRange.ref])
  | some r =>
    have hr := List.mem_of_find?_eq_some hf
    have hid : r.id = x.id := by simpa [AshmemRange.ref] using List.find?_some hf
    have hrx : r = x := List.inj_on_of_nodup_map hlist.ids hr hx hid
    subst hrx
    refine ⟨asma, r, by simp [Shared.deref, Option.mem_def.mp ha, hf], ha, hr, rfl, ?_⟩
    exact (hlist.onLru r hr).mp hm

/-- The list of `a` with the range `range` marked purged. -/
theorem purge_list (id : RangeId) (h : ListOk a asma.unpinnedList S.lru.list) {range : AshmemRange}
    (hr : range ∈ asma.unpinnedList) (hp : range.purged = ashmemNotPurged) :
    let mark := fun r : AshmemRange =>
      if r.id = range.id then { r with purged := ashmemWasPurged } else r
    ListOk a (asma.unpinnedList.map mark) (lruDel range S.lru).list ∧
      LruStep asma.unpinnedList (asma.unpinnedList.map mark) ⟨some id, S.lru⟩
        ⟨none, lruDel range S.lru⟩ := by
  intro mark
  have hlo : ∀ r, (mark r).pgstart = r.pgstart := fun r => by simp only [mark]; split <;> rfl
  have hhi : ∀ r, (mark r).pgend = r.pgend := fun r => by simp only [mark]; split <;> rfl
  have hidm : ∀ r, (mark r).id = r.id := fun r => by simp only [mark]; split <;> rfl
  have has : ∀ r, (mark r).asma = r.asma := fun r => by simp only [mark]; split <;> rfl
  have href : ∀ r, (mark r).ref = r.ref := fun r => by simp only [AshmemRange.ref, has, hidm]
  have hon : ∀ r ∈ asma.unpinnedList, r.ref ∈ (lruDel range S.lru).list ↔
      (mark r).purged = ashmemNotPurged := fun r hrm => by
    rw [mem_lruDel h.nodup, h.onLru r hrm]
    simp only [mark]
    split
    · rename_i he
      have : r = range := List.inj_on_of_nodup_map h.ids hrm hr he
      subst this
      simp [ashmemWasPurged, ashmemNotPurged]
    · rename_i hne
      simp [ref_ne hne]
  refine ⟨⟨⟨?_, ?_⟩, ?_, ?_, ?_, h.nodup.erase _, ?_⟩, ?_⟩
  · simpa [hlo, hhi] using h.desc.nonempty
  · rw [List.pairwise_map]
    simpa [hlo, hhi] using h.desc.sorted
  · simpa [hhi] using h.bound
  · simpa [has] using h.asma
  · rw [List.map_map, show AshmemRange.id ∘ mark = AshmemRange.id from funext hidm]
    exact h.ids
  · intro x hx
    obtain ⟨r, hrm, rfl⟩ := List.mem_map.mp hx
    rw [href]
    exact hon r hrm
  · intro ref
    constructor
    · intro hm
      by_cases hin : ref ∈ asma.unpinnedList.map AshmemRange.ref
      · obtain ⟨r, hrm, rfl⟩ := List.mem_map.mp hin
        exact .inr ⟨mark r, List.mem_map_of_mem hrm, href r, (hon r hrm).mp hm⟩
      · exact .inl ⟨((mem_lruDel h.nodup).mp hm).1, hin⟩
    · rintro (⟨hm, hn⟩ | ⟨x, hx, rfl, hxp⟩)
      · refine (mem_lruDel h.nodup).mpr ⟨hm, ?_⟩
        rintro rfl
        exact hn (List.mem_map_of_mem hr)
      · obtain ⟨r, hrm, rfl⟩ := List.mem_map.mp hx
        rw [href]
        exact (hon r hrm).mpr hxp

/-- A purge keeps the pages of the list, and marks those of its range. -/
theorem purge_spec (h : S.Ok) (ha : asma ∈ S.areas a) {range : AshmemRange}
    (hr : range ∈ asma.unpinnedList) (hp : range.purged = ashmemNotPurged) :
    ∃ l' st', S.purge a asma range = S.setList a asma l' st' ∧ (S.setList a asma l' st').Ok ∧
      cover AshmemRange.pgstart AshmemRange.pgend l' = asma.unpinned ∧
      asma.purgedPages ∪ Set.Icc range.pgstart range.pgend ⊆
        { asma with unpinnedList := l' }.purgedPages ∧
      ∀ r' ∈ l', ∃ r ∈ asma.unpinnedList,
        r'.id = r.id ∧ r'.pgstart = r.pgstart ∧ r'.pgend = r.pgend := by
  obtain ⟨hok, hlru⟩ := purge_list 0 (h.list a asma ha) hr hp
  refine ⟨_, _, rfl, h.setList ha hlru hok, ?_, ?_, ?_⟩
  · ext p
    simp only [AshmemArea.unpinned, mem_cover, List.mem_map, exists_exists_and_eq_and]
    refine exists_congr fun r => and_congr_right fun _ => ?_
    split <;> rfl
  · rintro p (hpp | hpp)
    · obtain ⟨r, hrm, hrp, hps⟩ := mem_purgedPages.mp hpp
      refine mem_purgedPages.mpr ⟨_, List.mem_map_of_mem hrm, ?_, ?_⟩ <;> split
      · exact (by decide : ashmemWasPurged ≠ ashmemNotPurged)
      · exact hrp
      · exact hps
      · exact hps
    · refine mem_purgedPages.mpr ⟨_, List.mem_map_of_mem hr, ?_, ?_⟩
      · simp [ashmemWasPurged, ashmemNotPurged]
      · rw [if_pos rfl]
        exact hpp
  · intro x hx
    obtain ⟨r, hrm, rfl⟩ := List.mem_map.mp hx
    refine ⟨r, hrm, ?_⟩
    split <;> exact ⟨rfl, rfl, rfl⟩

theorem mem_release {l : List AshmemRange} (st : Pinning) (h : ListOk a l st.lru.list) :
    (∀ ref, ref ∈ (l.foldl (fun st range => rangeDel range st) st).lru.list ↔
      ref ∈ st.lru.list ∧ ref ∉ l.map AshmemRange.ref) ∧
    (l.foldl (fun st range => rangeDel range st) st).lru.list.Nodup := by
  induction l generalizing st with
  | nil => exact ⟨by simp, h.nodup⟩
  | cons r next ih =>
    obtain ⟨hm, hn⟩ := ih _ (ListOk.delMid (b := []) h)
    refine ⟨fun ref => ?_, hn⟩
    rw [List.foldl_cons, hm, mem_rangeDel h.nodup (h.onLru r (by simp))]
    simp [and_assoc]

/-- `ashmem_release` takes the ranges of the area off the LRU list. -/
theorem Ok.release (h : S.Ok) (ha : asma ∈ S.areas a) : (S.release a asma).Ok := by
  have hlist := h.list a asma ha
  obtain ⟨hm, hn⟩ := mem_release ⟨none, S.lru⟩ hlist
  refine ⟨fun b asma' hb => ?_, fun ref hr => ?_, hn⟩
  · obtain ⟨hab, hb⟩ := mem_release_areas.mp hb
    have hb' := h.list b asma' hb
    refine ⟨hb'.desc, hb'.bound, hb'.asma, hb'.ids, hn, fun r hr => ?_⟩
    rw [← hb'.onLru r hr]
    refine (hm _).trans (and_iff_left fun hin => ?_)
    obtain ⟨x, hx, he⟩ := List.mem_map.mp hin
    simp only [AshmemRange.ref, RangeRef.mk.injEq] at he
    exact hab ((hb'.asma r hr).symm.trans (he.1.symm.trans (hlist.asma x hx)))
  · obtain ⟨hr, hnot⟩ := (hm ref).mp hr
    obtain ⟨asma', ha', hin⟩ := h.lru ref hr
    have hab : ref.asma ≠ a := fun he => by
      rw [he, Option.mem_def.mp ha] at ha'
      exact hnot (Option.some.inj ha' ▸ hin)
    exact ⟨asma', mem_release_areas.mpr ⟨hab, ha'⟩, hin⟩

end Shared

/-! ## Runs of calls and purges -/

/-- A call on the area `a`, with the preallocated range if it takes one, or a purge of the first
range of the LRU list. -/
inductive PinOp where
  | pin (a : AreaId) (pgstart pgend : Nat) (range : RangeId)
  | unpin (a : AreaId) (pgstart pgend : Nat) (range : RangeId)
  | getPinStatus (a : AreaId) (pgstart pgend : Nat)
  | purge

/-- The call is made on an open area with an interval of pages below `SIZE_MAX`, and the
preallocated range is new. -/
def PinOp.Valid (S : Shared) : PinOp → Prop
  | .pin a s e id | .unpin a s e id =>
    (S.areas a).isSome ∧ s ≤ e ∧ e < 2 ^ 64 - 1 ∧ S.Unused id
  | .getPinStatus a s e => (S.areas a).isSome ∧ s ≤ e ∧ e < 2 ^ 64 - 1
  | .purge => True

/-- What the operation means on the sets of unpinned pages. -/
def PinOp.effect (U : AreaId → Set Nat) : PinOp → AreaId → Set Nat
  | .pin a s e _ => Function.update U a (U a \ Set.Icc s e)
  | .unpin a s e _ => Function.update U a (U a ∪ Set.Icc s e)
  | .getPinStatus _ _ _ | .purge => U

/-- The operation as the code does it: its result and the state after it. `none`: a `NULL`
`*new_range`, or a pointer of the LRU list to no range. -/
def Shared.exec (S : Shared) : PinOp → Option (Nat × Shared)
  | .pin a s e id => do S.pin a (← S.areas a) s e id
  | .unpin a s e id => do S.unpin a (← S.areas a) s e id
  | .getPinStatus a s e => do
    let asma ← S.areas a
    some (ashmemGetPinStatus asma.unpinnedList s e, S)
  | .purge =>
    match S.lru.list with
    | [] => some (0, S)
    | ref :: _ => do
      let (asma, range) ← S.deref ref
      some (rangeSize range, S.purge ref.asma asma range)

/-- Runs of calls and purges, on areas whose lists are empty at first. -/
def pinSys : Sys Shared PinOp where
  init S := S.lru = ⟨[], 0⟩ ∧ ∀ a, ∀ asma ∈ S.areas a, asma.unpinnedList = []
  step S op S' := op.Valid S ∧ ∃ ret, S.exec op = some (ret, S')

/-- One operation: it is done as `PinOp.effect` says, and keeps the invariant. -/
theorem Shared.exec_spec {S : Shared} (h : S.Ok) {op : PinOp} (hv : op.Valid S) :
    ∃ ret S', S.exec op = some (ret, S') ∧ S'.Ok ∧ S'.unpinned = op.effect S.unpinned ∧
      ∀ a s e, op = .getPinStatus a s e →
        (ret = ashmemIsUnpinned ↔ (S.unpinned a ∩ Set.Icc s e).Nonempty) := by
  cases op with
  | pin a s e id =>
    obtain ⟨ha, hse, -, hid⟩ := hv
    obtain ⟨asma, ha⟩ := Option.isSome_iff_exists.mp ha
    obtain ⟨ret, l', st', heq, hok, hpost, -⟩ := pin_spec h ha hid hse
    refine ⟨ret, _, by simp [Shared.exec, ha, heq], hok, ?_, by simp⟩
    rw [unpinned_setList, hpost.cover, PinOp.effect, unpinned_eq ha, AshmemArea.unpinned]
  | unpin a s e id =>
    obtain ⟨ha, hse, hlt, hid⟩ := hv
    obtain ⟨asma, ha⟩ := Option.isSome_iff_exists.mp ha
    obtain ⟨l', st', heq, hok, hpost, -⟩ := unpin_spec h ha hid hse (by omega)
    refine ⟨0, _, by simp [Shared.exec, ha, heq], hok, ?_, by simp⟩
    rw [unpinned_setList, hpost.cover, PinOp.effect, unpinned_eq ha, AshmemArea.unpinned]
  | getPinStatus a s e =>
    obtain ⟨ha, hse, -⟩ := hv
    obtain ⟨asma, ha⟩ := Option.isSome_iff_exists.mp ha
    refine ⟨ashmemGetPinStatus asma.unpinnedList s e, S, by simp [Shared.exec, ha], h, rfl, ?_⟩
    rintro a' s' e' ⟨⟩
    rw [unpinned_eq ha]
    exact ashmemGetPinStatus_iff (h.list a asma ha).desc hse
  | purge =>
    cases hl : S.lru.list with
    | nil => exact ⟨0, S, by simp [Shared.exec, hl], h, rfl, by simp⟩
    | cons ref rest =>
      obtain ⟨asma, r, hd, ha, hr, -, hp⟩ := h.deref ref (by simp [hl])
      obtain ⟨l', st', heq, hok, hcov, -⟩ := purge_spec h ha hr hp
      refine ⟨rangeSize r, _, by simp [Shared.exec, hl, hd, heq], hok, ?_, by simp⟩
      rw [unpinned_setList, hcov, PinOp.effect, ← unpinned_eq ha, Function.update_eq_self]

theorem pinSys_ok {S : Shared} (h : pinSys.Reach S) : S.Ok := by
  refine h.inv ?_ ?_
  · rintro S ⟨hl, ha⟩
    refine ⟨fun a asma hm => ?_, by simp [hl], by simp [hl]⟩
    rw [ha a asma hm, hl]
    exact ⟨Desc.nil, by simp, by simp, by simp, by simp, by simp⟩
  · rintro S op S' hok ⟨hv, ret, heq⟩
    obtain ⟨ret', S₁, heq', hok', -⟩ := Shared.exec_spec hok hv
    rw [heq] at heq'
    cases heq'
    exact hok'

/-- **Pin and unpin act on sets of pages.** In every state of every run the lists are strictly
descending lists of disjoint intervals, and the next operation, whatever it is, succeeds
(`range_alloc` finds the preallocated range) and has the effect `PinOp.effect` on the sets of
unpinned pages of all areas; `ashmem_get_pin_status` is `ASHMEM_IS_UNPINNED` exactly if one of
the pages is unpinned. -/
theorem pinSys_refines {S : Shared} (h : pinSys.Reach S) :
    (∀ a, ∀ asma ∈ S.areas a, Desc AshmemRange.pgstart AshmemRange.pgend asma.unpinnedList) ∧
    ∀ op : PinOp, op.Valid S →
      ∃ ret S', S.exec op = some (ret, S') ∧ S'.unpinned = op.effect S.unpinned ∧
        ∀ a s e, op = .getPinStatus a s e →
          (ret = ashmemIsUnpinned ↔ (S.unpinned a ∩ Set.Icc s e).Nonempty) := by
  have hok := pinSys_ok h
  refine ⟨fun a asma ha => (hok.list a asma ha).desc, fun op hv => ?_⟩
  obtain ⟨ret, S', heq, -, hU, hst⟩ := Shared.exec_spec hok hv
  exact ⟨ret, S', heq, hU, hst⟩

/-- One area, with the pages 2 to 5 unpinned. -/
def twoToFive : Shared where
  areas a := if a = 0 then some { ashmemOpen 0 with unpinnedList := [⟨1, 0, 2, 5, 0⟩] } else none
  lru := ⟨[⟨0, 1⟩], 4⟩

theorem pinSys_refines_twoToFive :
    ∃ ret S', twoToFive.exec (.pin 0 3 4 2) = some (ret, S') ∧
      S'.unpinned 0 = twoToFive.unpinned 0 \ Set.Icc 3 4 := by
  have h0 : pinSys.Reach ⟨fun a => if a = 0 then some (ashmemOpen 0) else none, ⟨[], 0⟩⟩ :=
    .init ⟨rfl, fun a asma h => by
      simp only [Option.mem_def, Option.ite_none_right_eq_some, Option.some.injEq] at h
      rw [← h.2]; rfl⟩
  have h1 : pinSys.Reach twoToFive := h0.next (a := .unpin 0 2 5 1) ⟨⟨rfl, by decide, by decide,
    fun a asma h => by
      simp only [Option.mem_def, Option.ite_none_right_eq_some, Option.some.injEq] at h
      rw [← h.2]; simp [ashmemOpen]⟩, 0, by
    have hun : ashmemUnpinFrom 0 [] 2 5 ashmemNotPurged ⟨some 1, ⟨[], 0⟩⟩ =
        some ([⟨1, 0, 2, 5, 0⟩], ⟨none, ⟨[⟨0, 1⟩], 4⟩⟩) := by rw [ashmemUnpinFrom]; rfl
    simp only [Shared.exec, Shared.unpin, ashmemUnpin, if_true, Option.bind_eq_bind,
      Option.bind_some, ashmemOpen, hun, twoToFive, Shared.setList, Shared.setArea]
    congr 4
    funext a
    by_cases ha : a = 0
    · subst ha; rfl
    · simp [ha]⟩
  obtain ⟨ret, S', heq, hU, -⟩ := (pinSys_refines h1).2 (.pin 0 3 4 2) ⟨rfl, by decide, by decide,
    fun a asma h => by
      simp only [twoToFive, Option.mem_def, Option.ite_none_right_eq_some, Option.some.injEq] at h
      rw [← h.2]; simp⟩
  exact ⟨ret, S', heq, by rw [hU]; simp [PinOp.effect]⟩

end Redroid.Ashmem
