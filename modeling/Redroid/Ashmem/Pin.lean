import Mathlib.Data.List.Nodup
import Redroid.Lib.Sys
import Redroid.Lib.DescList
import Redroid.Ashmem.Area

/-!
# Pinning and unpinning (`ashmem_pin`, `ashmem_unpin`, `ashmem_get_pin_status`)
-/

namespace Redroid.Ashmem

/-! ## The LRU list -/

/-- `ashmem_lru_list` and `lru_count`. -/
structure Lru where
  list : List RangeRef
  count : Nat
  deriving DecidableEq, Repr

/-- `lru_add`. -/
def lruAdd (range : AshmemRange) (lru : Lru) : Lru where
  list := lru.list ++ [range.ref]
  count := (lru.count + rangeSize range) % 2 ^ 64

/-- `lru_del`. -/
def lruDel (range : AshmemRange) (lru : Lru) : Lru where
  list := lru.list.erase range.ref
  count := (lru.count + (2 ^ 64 - rangeSize range)) % 2 ^ 64

/-! ## One call -/

/-- What a call threads through besides the list of the area: the preallocated range
`*new_range` and the LRU list. -/
structure Pinning where
  newRange : Option RangeId
  lru : Lru
  deriving DecidableEq, Repr

/-- `range_alloc`, without the insertion into the list. It takes the preallocated range; `none`:
`*new_range` is `NULL`, and the code writes through it. -/
def rangeAlloc (asma : AreaId) (purged start stop : Nat) (st : Pinning) :
    Option (AshmemRange × Pinning) :=
  match st.newRange with
  | none => none
  | some id =>
    let range : AshmemRange := ⟨id, asma, start, stop, purged⟩
    some (range, ⟨none, if rangeOnLru range then lruAdd range st.lru else st.lru⟩)

/-- `range_del`, without the removal from the list. -/
def rangeDel (range : AshmemRange) (st : Pinning) : Pinning :=
  { st with lru := if rangeOnLru range then lruDel range st.lru else st.lru }

/-- `range_shrink`. -/
def rangeShrink (range : AshmemRange) (start stop : Nat) (st : Pinning) :
    AshmemRange × Pinning :=
  let range' := { range with pgstart := start, pgend := stop }
  let less := (rangeSize range + (2 ^ 64 - rangeSize range')) % 2 ^ 64
  (range', if rangeOnLru range' then
    { st with lru.count := (st.lru.count + (2 ^ 64 - less)) % 2 ^ 64 } else st)

/-- The loop of `ashmem_pin` over the rest of the list: the status, the list, the state. -/
def ashmemPinLoop (asma : AreaId) (pgstart pgend : Nat) :
    List AshmemRange → Pinning → Option (Nat × List AshmemRange × Pinning)
  | [], st => some (ashmemNotPurged, [], st)
  | range :: next, st =>
    -- moved past last applicable page; we can short circuit
    if rangeBeforePage range pgstart then some (ashmemNotPurged, range :: next, st)
    else if pageRangeInRange range pgstart pgend then
      -- Case #1: nuke the whole thing.
      if pageRangeSubsumesRange range pgstart pgend then do
        let (ret, next, st) ← ashmemPinLoop asma pgstart pgend next (rangeDel range st)
        some (range.purged ||| ret, next, st)
      -- Case #2: we overlap from the start, so adjust it.
      else if pgstart ≤ range.pgstart then do
        let (range', st) := rangeShrink range ((pgend + 1) % 2 ^ 64) range.pgend st
        let (ret, next, st) ← ashmemPinLoop asma pgstart pgend next st
        some (range.purged ||| ret, range' :: next, st)
      -- Case #3: we overlap from the rear, so adjust it.
      else if range.pgend ≤ pgend then do
        let (range', st) := rangeShrink range range.pgstart (pgstart - 1) st
        let (ret, next, st) ← ashmemPinLoop asma pgstart pgend next st
        some (range.purged ||| ret, range' :: next, st)
      -- Case #4: we eat a chunk out of the middle, and stop.
      else do
        let (new, st) ← rangeAlloc asma range.purged ((pgend + 1) % 2 ^ 64) range.pgend st
        let (range', st) := rangeShrink range range.pgstart (pgstart - 1) st
        some (range.purged, new :: range' :: next, st)
    else do
      let (ret, next, st) ← ashmemPinLoop asma pgstart pgend next st
      some (ret, range :: next, st)

/-- `ashmem_pin` on the list of the area `asma`. -/
def ashmemPin (asma : AreaId) (list : List AshmemRange) (pgstart pgend : Nat) (st : Pinning) :
    Option (Nat × List AshmemRange × Pinning) :=
  ashmemPinLoop asma pgstart pgend list st

/-- How one pass of `ashmem_unpin` over the list ends. -/
inductive UnpinScan where
  /-- A range of the list contains the pages: return. -/
  | subsumed
  /-- A range shares a page with them: merge it and restart. -/
  | overlap (before : List AshmemRange) (range : AshmemRange) (after : List AshmemRange)
  /-- The insertion point: before the range where the loop broke, or at the end of the list. -/
  | insert (before after : List AshmemRange)
  deriving DecidableEq, Repr

/-- A pass that has moved on over `range`. -/
def UnpinScan.past (range : AshmemRange) : UnpinScan → UnpinScan
  | .subsumed => .subsumed
  | .overlap b r a => .overlap (range :: b) r a
  | .insert b a => .insert (range :: b) a

/-- One pass of `ashmem_unpin` over the list. -/
def unpinScan (pgstart pgend : Nat) : List AshmemRange → UnpinScan
  | [] => .insert [] []
  | range :: next =>
    if rangeBeforePage range pgstart then .insert [] (range :: next)
    else if pageRangeSubsumedByRange range pgstart pgend then .subsumed
    else if pageRangeInRange range pgstart pgend then .overlap [] range next
    else (unpinScan pgstart pgend next).past range

theorem unpinScan_overlap {s e : Nat} {l b a : List AshmemRange} {r : AshmemRange}
    (h : unpinScan s e l = .overlap b r a) : l = b ++ r :: a ∧ pageRangeInRange r s e = true := by
  induction l generalizing b with
  | nil => cases h
  | cons x next ih =>
    simp only [unpinScan] at h
    split at h
    · cases h
    split at h
    · cases h
    split at h
    · cases h; exact ⟨rfl, by assumption⟩
    · cases hs : unpinScan s e next with
      | subsumed => rw [hs] at h; cases h
      | insert b' a' => rw [hs] at h; cases h
      | overlap b' r' a' =>
        rw [hs] at h; cases h
        obtain ⟨rfl, hr⟩ := ih hs
        exact ⟨rfl, hr⟩

/-- `ashmem_unpin` from its label `restart` on: `purged` collects the status of the ranges merged
so far. -/
def ashmemUnpinFrom (asma : AreaId) (list : List AshmemRange) (pgstart pgend purged : Nat)
    (st : Pinning) : Option (List AshmemRange × Pinning) :=
  match _h : unpinScan pgstart pgend list with
  | .subsumed => some (list, st)
  | .overlap before range after =>
    ashmemUnpinFrom asma (before ++ after) (min range.pgstart pgstart) (max range.pgend pgend)
      (purged ||| range.purged) (rangeDel range st)
  | .insert before after => do
    let (new, st) ← rangeAlloc asma purged pgstart pgend st
    some (before ++ new :: after, st)
termination_by list.length
decreasing_by
  rw [(unpinScan_overlap _h).1]
  simp

/-- `ashmem_unpin`; it returns 0. -/
def ashmemUnpin (asma : AreaId) (list : List AshmemRange) (pgstart pgend : Nat) (st : Pinning) :
    Option (Nat × List AshmemRange × Pinning) := do
  let (list, st) ← ashmemUnpinFrom asma list pgstart pgend ashmemNotPurged st
  some (0, list, st)

/-- `ashmem_get_pin_status`. -/
def ashmemGetPinStatus (list : List AshmemRange) (pgstart pgend : Nat) : Nat :=
  match list with
  | [] => ashmemIsPinned
  | range :: next =>
    if rangeBeforePage range pgstart then ashmemIsPinned
    else if pageRangeInRange range pgstart pgend then ashmemIsUnpinned
    else ashmemGetPinStatus next pgstart pgend

/-! ## What one call does -/

section Spec

variable {a : AreaId} {s e id : Nat} {l l' : List AshmemRange} {st st' : Pinning} {ret : Nat}

/-- The ranges of one list are intervals below `2 ^ 64`, strictly descending, of the area `a`,
with different ids, and on the LRU list exactly if they are not purged. -/
structure ListOk (a : AreaId) (l : List AshmemRange) (lru : List RangeRef) : Prop where
  desc : Desc AshmemRange.pgstart AshmemRange.pgend l
  bound : ∀ r ∈ l, r.pgend < 2 ^ 64
  asma : ∀ r ∈ l, r.asma = a
  ids : (l.map AshmemRange.id).Nodup
  nodup : lru.Nodup
  onLru : ∀ r ∈ l, r.ref ∈ lru ↔ r.purged = ashmemNotPurged

/-- The preallocated range of a call on the area `a`: the struct `id`, in no list yet. -/
structure Fresh (a : AreaId) (id : RangeId) (l : List AshmemRange) (st : Pinning) : Prop where
  newRange : st.newRange = some id
  ids : id ∉ l.map AshmemRange.id
  lru : ⟨a, id⟩ ∉ st.lru.list

/-- The LRU list of `st'` is that of `st` with the refs of the ranges `l` replaced by those of
the ranges `l'` that are not purged. -/
def LruStep (l l' : List AshmemRange) (st st' : Pinning) : Prop :=
  ∀ ref, ref ∈ st'.lru.list ↔
    (ref ∈ st.lru.list ∧ ref ∉ l.map AshmemRange.ref) ∨
      ∃ r ∈ l', r.ref = ref ∧ r.purged = ashmemNotPurged

theorem ListOk.tail {r : AshmemRange} {lru : List RangeRef} (h : ListOk a (r :: l) lru) :
    ListOk a l lru where
  desc := (Desc.cons_iff.mp h.desc).2.2
  bound x hx := h.bound x (by simp [hx])
  asma x hx := h.asma x (by simp [hx])
  ids := (List.nodup_cons.mp h.ids).2
  nodup := h.nodup
  onLru x hx := h.onLru x (by simp [hx])

theorem Fresh.tail {r : AshmemRange} (h : Fresh a id (r :: l) st) : Fresh a id l st :=
  ⟨h.newRange, fun hm => h.ids (List.mem_cons_of_mem _ hm), h.lru⟩

theorem mem_lruDel {r : AshmemRange} {lru : Lru} (hn : lru.list.Nodup) {ref : RangeRef} :
    ref ∈ (lruDel r lru).list ↔ ref ∈ lru.list ∧ ref ≠ r.ref := by
  simp only [lruDel]
  rw [hn.mem_erase_iff, and_comm]

theorem mem_rangeDel {r : AshmemRange} (hn : st.lru.list.Nodup)
    (hr : r.ref ∈ st.lru.list ↔ r.purged = ashmemNotPurged) {ref : RangeRef} :
    ref ∈ (rangeDel r st).lru.list ↔ ref ∈ st.lru.list ∧ ref ≠ r.ref := by
  unfold rangeDel rangeOnLru
  split
  · exact mem_lruDel hn
  · rename_i hp
    refine ⟨fun h => ⟨h, ?_⟩, fun h => h.1⟩
    rintro rfl
    exact hp (by simpa using hr.mp h)

theorem nodup_rangeDel {r : AshmemRange} (hn : st.lru.list.Nodup) :
    (rangeDel r st).lru.list.Nodup := by
  unfold rangeDel
  split
  · exact hn.erase _
  · exact hn

theorem ref_ne {x y : AshmemRange} (h : x.id ≠ y.id) : x.ref ≠ y.ref := fun he => by
  simp only [AshmemRange.ref, RangeRef.mk.injEq] at he
  exact h he.2

/-- The list without the range `r`, after `range_del`. -/
theorem ListOk.delMid {r : AshmemRange} {b c : List AshmemRange}
    (h : ListOk a (b ++ r :: c) st.lru.list) : ListOk a (b ++ c) (rangeDel r st).lru.list := by
  have hsub : (b ++ c).Sublist (b ++ r :: c) :=
    (List.Sublist.refl b).append (List.sublist_cons_self r c)
  have hid := h.ids
  rw [List.map_append, List.map_cons, List.nodup_middle, ← List.map_append] at hid
  obtain ⟨hid, hids⟩ := List.nodup_cons.mp hid
  refine ⟨h.desc.sublist hsub, fun x hx => h.bound x (hsub.subset hx),
    fun x hx => h.asma x (hsub.subset hx), hids, nodup_rangeDel h.nodup, fun x hx => ?_⟩
  rw [mem_rangeDel h.nodup (h.onLru r (by simp)), h.onLru x (hsub.subset hx)]
  have hne : x.ref ≠ r.ref := ref_ne fun he => hid (he ▸ List.mem_map_of_mem hx)
  simp [hne]

theorem Fresh.delMid {r : AshmemRange} {b c : List AshmemRange}
    (h : ListOk a (b ++ r :: c) st.lru.list) (hf : Fresh a id (b ++ r :: c) st) :
    Fresh a id (b ++ c) (rangeDel r st) := by
  refine ⟨hf.newRange, fun hm => hf.ids ?_, fun hm =>
    hf.lru ((mem_rangeDel h.nodup (h.onLru r (by simp))).mp hm).1⟩
  simp only [List.map_append, List.map_cons, List.mem_append, List.mem_cons] at hm ⊢
  exact hm.imp_right .inr

/-- `range_shrink` keeps the struct and the LRU list. -/
theorem rangeShrink_lru (st : Pinning) (r : AshmemRange) (x y : Nat) :
    (rangeShrink r x y st).1 = { r with pgstart := x, pgend := y } ∧
    (rangeShrink r x y st).2.newRange = st.newRange ∧
    (rangeShrink r x y st).2.lru.list = st.lru.list := by
  unfold rangeShrink
  refine ⟨rfl, ?_⟩
  simp only
  split <;> exact ⟨rfl, rfl⟩

/-- `range_alloc` with a preallocated range: the new range is at the end of the LRU list unless
it is purged. -/
theorem rangeAlloc_spec (hn : st.lru.list.Nodup) (hnew : st.newRange = some id)
    (hid : ⟨a, id⟩ ∉ st.lru.list) (purged x y : Nat) :
    ∃ st₁, rangeAlloc a purged x y st = some (⟨id, a, x, y, purged⟩, st₁) ∧
      (∀ ref, ref ∈ st₁.lru.list ↔
        ref ∈ st.lru.list ∨ (ref = ⟨a, id⟩ ∧ purged = ashmemNotPurged)) ∧
      st₁.lru.list.Nodup := by
  unfold rangeAlloc
  rw [hnew]
  refine ⟨_, rfl, ?_⟩
  by_cases hp : purged = ashmemNotPurged
  · simp only [rangeOnLru, hp, beq_self_eq_true, if_true, lruAdd, AshmemRange.ref,
      List.mem_append, List.mem_singleton, and_true]
    refine ⟨fun _ => trivial, List.nodup_append.mpr ⟨hn, by simp, ?_⟩⟩
    intro x hx y hy he
    exact hid (List.mem_singleton.mp hy ▸ he ▸ hx)
  · simp only [rangeOnLru, beq_iff_eq, hp, if_false, and_false, or_false]
    exact ⟨fun _ => trivial, hn⟩

/-- What `ashmem_pin` on `s..e` does to the list `l`: the pages `s..e` leave it, what is left keeps
its status, and the status returned is `ashmemNotPurged` only if no range with such a page was
purged. -/
structure PinPost (a : AreaId) (s e : Nat) (id : RangeId) (l : List AshmemRange) (st : Pinning)
    (ret : Nat) (l' : List AshmemRange) (st' : Pinning) : Prop where
  ok : ListOk a l' st'.lru.list
  cover : cover AshmemRange.pgstart AshmemRange.pgend l' =
    cover AshmemRange.pgstart AshmemRange.pgend l \ Set.Icc s e
  sub : ∀ r' ∈ l', ∃ r ∈ l, r.pgstart ≤ r'.pgstart ∧ r'.pgend ≤ r.pgend ∧
    r'.purged = r.purged ∧ (r'.pgstart = r.pgstart ∨ r'.pgstart = e + 1) ∧
    (r'.pgend = r.pgend ∨ r'.pgend + 1 = s)
  ret : ret = ashmemNotPurged → ∀ r ∈ l, r.pgstart ≤ e → s ≤ r.pgend → r.purged = ashmemNotPurged
  ids : ∀ r' ∈ l', r'.id ∈ l.map AshmemRange.id ∨ r'.id = id
  lru : LruStep l l' st st'

theorem notMem_refs {x : AshmemRange} (h : x.id ∉ l.map AshmemRange.id) :
    x.ref ∉ l.map AshmemRange.ref := fun hm => by
  obtain ⟨y, hy, he⟩ := List.mem_map.mp hm
  simp only [AshmemRange.ref, RangeRef.mk.injEq] at he
  exact h (he.2 ▸ List.mem_map_of_mem hy)

/-- Ranges that stay as they are: the LRU list stays too. -/
theorem LruStep.refl (h : ListOk a l st.lru.list) : LruStep l l st st := by
  intro ref
  constructor
  · intro hm
    by_cases hin : ref ∈ l.map AshmemRange.ref
    · obtain ⟨r, hr, rfl⟩ := List.mem_map.mp hin
      exact .inr ⟨r, hr, rfl, (h.onLru r hr).mp hm⟩
    · exact .inl ⟨hm, hin⟩
  · rintro (⟨hm, -⟩ | ⟨r, hr, rfl, hp⟩)
    · exact hm
    · exact (h.onLru r hr).mpr hp

/-- The loop stops: no range of the list has a page in `s..e`. -/
theorem PinPost.stop (h : ListOk a l st.lru.list) (hb : ∀ r ∈ l, r.pgend < s) :
    PinPost a s e id l st ashmemNotPurged l st where
  ok := h
  cover := by
    ext p
    simp only [mem_cover, Set.mem_sdiff, Set.mem_Icc]
    refine ⟨fun ⟨r, hr, hp⟩ => ⟨⟨r, hr, hp⟩, ?_⟩, fun h => h.1⟩
    have := hb r hr
    omega
  sub r hr := ⟨r, hr, Nat.le_refl _, Nat.le_refl _, rfl, .inl rfl, .inl rfl⟩
  ret _ r hr _ h2 := by have := hb r hr; omega
  ids r hr := .inl (List.mem_map_of_mem hr)
  lru := .refl h

/-- The first range is deleted: all its pages are in `s..e`. -/
theorem PinPost.del {r : AshmemRange} {next : List AshmemRange}
    (h : ListOk a (r :: next) st.lru.list) (hs : s ≤ r.pgstart) (he : r.pgend ≤ e)
    (ih : PinPost a s e id next (rangeDel r st) ret l' st') :
    PinPost a s e id (r :: next) st (r.purged ||| ret) l' st' where
  ok := ih.ok
  cover := by
    rw [ih.cover, cover_cons, Set.union_sdiff_distrib,
      Set.sdiff_eq_empty.mpr (Set.Icc_subset_Icc hs he), Set.empty_union]
  sub r' hr' := by
    obtain ⟨x, hx, hsub⟩ := ih.sub r' hr'
    exact ⟨x, by simp [hx], hsub⟩
  ret h0 x hx := by
    obtain ⟨hr0, h0⟩ := Nat.or_eq_zero_iff.mp h0
    rcases List.mem_cons.mp hx with rfl | hx
    · exact fun _ _ => hr0
    · exact ih.ret h0 x hx
  ids r' hr' := by
    rcases ih.ids r' hr' with h | h
    · exact .inl (List.mem_cons_of_mem _ h)
    · exact .inr h
  lru ref := by
    rw [ih.lru ref, mem_rangeDel h.nodup (h.onLru r (by simp))]
    simp only [List.map_cons, List.mem_cons, not_or]
    tauto

/-- The first range stays, cut down to `x..y`, its pages outside `s..e`. -/
theorem PinPost.cons {r : AshmemRange} {next : List AshmemRange} {st₁ : Pinning} {x y q : Nat}
    (h : ListOk a (r :: next) st.lru.list) (hf : Fresh a id (r :: next) st)
    (h₁ : st₁.lru.list = st.lru.list) (hx : r.pgstart ≤ x) (hxy : x ≤ y) (hy : y ≤ r.pgend)
    (hx' : x = r.pgstart ∨ x = e + 1) (hy' : y = r.pgend ∨ y + 1 = s)
    (hcov : Set.Icc x y = Set.Icc r.pgstart r.pgend \ Set.Icc s e)
    (hq : q = ashmemNotPurged → ret = ashmemNotPurged ∧
      (r.pgstart ≤ e → s ≤ r.pgend → r.purged = ashmemNotPurged))
    (ih : PinPost a s e id next st₁ ret l' st') :
    PinPost a s e id (r :: next) st q ({ r with pgstart := x, pgend := y } :: l') st' := by
  obtain ⟨hrr, hlt, -⟩ := Desc.cons_iff.mp h.desc
  have hid : r.id ∉ l'.map AshmemRange.id := fun hm => by
    obtain ⟨r', hr', he⟩ := List.mem_map.mp hm
    rcases ih.ids r' hr' with hi | hi
    · exact (List.nodup_cons.mp h.ids).1 (he ▸ hi)
    · exact hf.ids (by simp [← hi, he])
  have hnext : r.ref ∉ next.map AshmemRange.ref := notMem_refs (List.nodup_cons.mp h.ids).1
  have hl' : r.ref ∉ l'.map AshmemRange.ref := notMem_refs hid
  have hmem : r.ref ∈ st'.lru.list ↔ r.purged = ashmemNotPurged := by
    rw [ih.lru, h₁, h.onLru r (by simp)]
    refine ⟨fun h => h.elim (·.1) fun ⟨z, hz, he, _⟩ => ?_, fun h => .inl ⟨h, hnext⟩⟩
    exact absurd (he ▸ List.mem_map_of_mem hz) hl'
  refine ⟨⟨?_, ?_, ?_, ?_, ih.ok.nodup, ?_⟩, ?_, ?_, ?_, ?_, ?_⟩
  · refine Desc.cons_iff.mpr ⟨hxy, fun b hb => ?_, ih.ok.desc⟩
    obtain ⟨z, hz, -, hz', -⟩ := ih.sub b hb
    have := hlt z hz
    show b.pgend < x
    omega
  · simp only [List.mem_cons, forall_eq_or_imp]
    exact ⟨by have := h.bound r (by simp); omega, ih.ok.bound⟩
  · simp only [List.mem_cons, forall_eq_or_imp]
    exact ⟨h.asma r (by simp), ih.ok.asma⟩
  · exact List.nodup_cons.mpr ⟨hid, ih.ok.ids⟩
  · simp only [List.mem_cons, forall_eq_or_imp]
    exact ⟨hmem, ih.ok.onLru⟩
  · rw [cover_cons, cover_cons, ih.cover, Set.union_sdiff_distrib, ← hcov]
  · simp only [List.mem_cons, forall_eq_or_imp, exists_eq_or_imp]
    refine ⟨.inl ⟨hx, hy, trivial, hx', hy'⟩, fun r' hr' => .inr (ih.sub r' hr')⟩
  · intro h0
    obtain ⟨hret, hr⟩ := hq h0
    simp only [List.mem_cons, forall_eq_or_imp]
    exact ⟨hr, ih.ret hret⟩
  · simp only [List.mem_cons, forall_eq_or_imp, List.map_cons]
    exact ⟨.inl (.inl trivial), fun r' hr' => (ih.ids r' hr').imp_left .inr⟩
  · intro ref
    rw [ih.lru, h₁]
    simp only [List.map_cons, List.mem_cons, not_or, exists_eq_or_imp]
    show _ ↔ _ ∨ (r.ref = ref ∧ r.purged = ashmemNotPurged) ∨ _
    constructor
    · rintro (⟨hm, hn⟩ | hz)
      · by_cases he : ref = r.ref
        · exact .inr (.inl ⟨he.symm, (h.onLru r (by simp)).mp (he ▸ hm)⟩)
        · exact .inl ⟨hm, he, hn⟩
      · exact .inr (.inr hz)
    · rintro (⟨hm, -, hn⟩ | ⟨rfl, hp⟩ | hz)
      · exact .inl ⟨hm, hn⟩
      · exact .inl ⟨(h.onLru r (by simp)).mpr hp, hnext⟩
      · exact .inr hz

/-- The first range contains `s..e` with a page on each side: it is split in two. -/
theorem PinPost.split {r : AshmemRange} {next : List AshmemRange}
    (h : ListOk a (r :: next) st.lru.list) (hf : Fresh a id (r :: next) st) (hse : s ≤ e)
    (hs : r.pgstart < s) (he : e < r.pgend)
    (hlru : ∀ ref, ref ∈ st'.lru.list ↔ ref ∈ st.lru.list ∨
      (ref = ⟨a, id⟩ ∧ r.purged = ashmemNotPurged)) (hn : st'.lru.list.Nodup) :
    PinPost a s e id (r :: next) st r.purged
      (⟨id, a, e + 1, r.pgend, r.purged⟩ :: { r with pgend := s - 1 } :: next) st' := by
  obtain ⟨hrr, hlt, hdn⟩ := Desc.cons_iff.mp h.desc
  have hin : ∀ b ∈ next, b.pgend < s := fun b hb => by have := hlt b hb; omega
  have hid : id ≠ r.id ∧ id ∉ next.map AshmemRange.id := by simpa using hf.ids
  have hne : ∀ z ∈ r :: next, z.ref ≠ ⟨a, id⟩ := fun z hz he' => by
    simp only [AshmemRange.ref, RangeRef.mk.injEq] at he'
    exact hf.ids (he'.2 ▸ List.mem_map_of_mem hz)
  have hon : ∀ z ∈ r :: next, z.ref ∈ st'.lru.list ↔ z.purged = ashmemNotPurged := fun z hz => by
    rw [hlru, ← h.onLru z hz]
    have := hne z hz
    tauto
  refine ⟨⟨?_, ?_, ?_, ?_, hn, ?_⟩, ?_, ?_, ?_, ?_, ?_⟩
  · refine Desc.cons_iff.mpr ⟨he, ?_, Desc.cons_iff.mpr ⟨?_, hlt, hdn⟩⟩
    · simp only [List.mem_cons, forall_eq_or_imp]
      exact ⟨by omega, fun b hb => by have := hin b hb; omega⟩
    · show r.pgstart ≤ s - 1
      omega
  · have hb := h.bound
    simp only [List.mem_cons, forall_eq_or_imp] at hb ⊢
    exact ⟨hb.1, by omega, hb.2⟩
  · have ha := h.asma
    simp only [List.mem_cons, forall_eq_or_imp] at ha ⊢
    exact ⟨trivial, ha⟩
  · refine List.nodup_cons.mpr ⟨?_, h.ids⟩
    simpa using hid
  · simp only [List.mem_cons, forall_eq_or_imp] at hon ⊢
    refine ⟨?_, hon⟩
    show (⟨a, id⟩ : RangeRef) ∈ _ ↔ r.purged = _
    rw [hlru]
    have := hf.lru
    tauto
  · ext p
    simp only [cover_cons, Set.mem_union, Set.mem_sdiff, Set.mem_Icc]
    have : p ∈ Redroid.cover AshmemRange.pgstart AshmemRange.pgend next → p < s := by
      rintro ⟨b, hb, -, hp⟩
      have := hin b hb
      omega
    constructor
    · rintro (h | h | h)
      · exact ⟨.inl ⟨by omega, by omega⟩, by omega⟩
      · exact ⟨.inl ⟨by omega, by omega⟩, by omega⟩
      · exact ⟨.inr h, by have := this h; omega⟩
    · rintro ⟨h | h, hp⟩
      · by_cases hps : p < s
        · exact .inr (.inl ⟨by omega, by omega⟩)
        · exact .inl ⟨by omega, by omega⟩
      · exact .inr (.inr h)
  · simp only [List.mem_cons, forall_eq_or_imp, exists_eq_or_imp]
    refine ⟨.inl ⟨by omega, Nat.le_refl _, trivial, .inr trivial, .inl trivial⟩,
      .inl ⟨Nat.le_refl _, by omega, trivial, .inl trivial, .inr (by omega)⟩,
      fun b hb => .inr ⟨b, hb, Nat.le_refl _, Nat.le_refl _, rfl, .inl rfl, .inl rfl⟩⟩
  · intro h0
    simp only [List.mem_cons, forall_eq_or_imp]
    exact ⟨fun _ _ => h0, fun b hb _ h2 => by have := hin b hb; omega⟩
  · simp only [List.mem_cons, forall_eq_or_imp, List.map_cons]
    exact ⟨.inr trivial, .inl (.inl trivial), fun b hb => .inl (.inr (List.mem_map_of_mem hb))⟩
  · intro ref
    rw [hlru]
    have hl := LruStep.refl h ref
    simp only [List.mem_cons, exists_eq_or_imp] at hl ⊢
    show _ ↔ _ ∨ ((⟨a, id⟩ : RangeRef) = ref ∧ _) ∨ (r.ref = ref ∧ _) ∨ _
    rw [eq_comm (a := (⟨a, id⟩ : RangeRef)), or_left_comm, ← hl, or_comm]

/-- **`ashmem_pin`** uses the preallocated range at most once and does what `PinPost` says. -/
theorem ashmemPin_spec (hf : Fresh a id l st) (h : ListOk a l st.lru.list) (hse : s ≤ e) :
    ∃ ret l' st', ashmemPin a l s e st = some (ret, l', st') ∧
      PinPost a s e id l st ret l' st' := by
  unfold ashmemPin
  induction l generalizing st with
  | nil => exact ⟨_, _, _, rfl, .stop h (by simp)⟩
  | cons r next ih =>
    obtain ⟨hrr, hlt, -⟩ := Desc.cons_iff.mp h.desc
    have hb := h.bound r (by simp)
    have hin := pageRangeInRange_iff (s := s) (e := e) hrr hse
    have hsubs : pageRangeSubsumesRange r s e = true ↔ s ≤ r.pgstart ∧ r.pgend ≤ e := by
      simp [pageRangeSubsumesRange]
    by_cases h1 : r.pgend < s
    · refine ⟨ashmemNotPurged, r :: next, st, by simp [ashmemPinLoop, rangeBeforePage, h1], .stop h ?_⟩
      simp only [List.mem_cons, forall_eq_or_imp]
      exact ⟨h1, fun b hb => by have := hlt b hb; omega⟩
    have hb1 : ¬ rangeBeforePage r s = true := by simpa [rangeBeforePage] using h1
    by_cases h2 : r.pgstart ≤ e ∧ s ≤ r.pgend
    · by_cases h3 : s ≤ r.pgstart ∧ r.pgend ≤ e
      · -- Case #1
        obtain ⟨ret, l', st', heq, hpost⟩ := ih (Fresh.delMid (b := []) h hf) (ListOk.delMid (b := []) h)
        exact ⟨r.purged ||| ret, l', st',
          by simp [ashmemPinLoop, rangeBeforePage, h1, hin.mpr h2, hsubs.mpr h3, heq],
          .del h h3.1 h3.2 hpost⟩
      have hns : ¬ pageRangeSubsumesRange r s e = true := fun hc => h3 (hsubs.mp hc)
      by_cases h4 : s ≤ r.pgstart
      · -- Case #2
        have hmod : (e + 1) % 2 ^ 64 = e + 1 := Nat.mod_eq_of_lt (by omega)
        obtain ⟨hr', hnew, hlist⟩ := rangeShrink_lru st r (e + 1) r.pgend
        obtain ⟨ret, l', st', heq, hpost⟩ := @ih (rangeShrink r (e + 1) r.pgend st).2
          ⟨by rw [hnew]; exact hf.newRange, hf.tail.ids, by rw [hlist]; exact hf.lru⟩
          (by rw [hlist]; exact h.tail)
        have hloop : ashmemPinLoop a s e (r :: next) st =
            some (r.purged ||| ret, { r with pgstart := e + 1 } :: l', st') := by
          rw [ashmemPinLoop, if_neg hb1, if_pos (hin.mpr h2), if_neg hns, if_pos h4, hmod]
          simp only [heq, hr', Option.bind_eq_bind, Option.bind_some]
        refine ⟨_, _, _, hloop,
          .cons h hf hlist (by omega) (by omega) (Nat.le_refl _) (.inr rfl) (.inl rfl) ?_ ?_ hpost⟩
        · ext p; simp only [Set.mem_sdiff, Set.mem_Icc]; omega
        · intro h0
          obtain ⟨hr0, h0⟩ := Nat.or_eq_zero_iff.mp h0
          exact ⟨h0, fun _ _ => hr0⟩
      by_cases h5 : r.pgend ≤ e
      · -- Case #3
        obtain ⟨hr', hnew, hlist⟩ := rangeShrink_lru st r r.pgstart (s - 1)
        obtain ⟨ret, l', st', heq, hpost⟩ := @ih (rangeShrink r r.pgstart (s - 1) st).2
          ⟨by rw [hnew]; exact hf.newRange, hf.tail.ids, by rw [hlist]; exact hf.lru⟩
          (by rw [hlist]; exact h.tail)
        refine ⟨r.purged ||| ret, { r with pgstart := r.pgstart, pgend := s - 1 } :: l', st',
          by simp [ashmemPinLoop, rangeBeforePage, h1, hin.mpr h2, hns, h4, h5, heq, hr'],
          .cons h hf hlist (Nat.le_refl _) (by omega) (by omega) (.inl rfl) (.inr (by omega)) ?_ ?_
            hpost⟩
        · ext p; simp only [Set.mem_sdiff, Set.mem_Icc]; omega
        · intro h0
          obtain ⟨hr0, h0⟩ := Nat.or_eq_zero_iff.mp h0
          exact ⟨h0, fun _ _ => hr0⟩
      · -- Case #4
        have hmod : (e + 1) % 2 ^ 64 = e + 1 := Nat.mod_eq_of_lt (by omega)
        obtain ⟨st₁, halloc, hl₁, hn₁⟩ :=
          rangeAlloc_spec h.nodup hf.newRange hf.lru r.purged (e + 1) r.pgend
        obtain ⟨hr', -, hlist⟩ := rangeShrink_lru st₁ r r.pgstart (s - 1)
        have hloop : ashmemPinLoop a s e (r :: next) st =
            some (r.purged, ⟨id, a, e + 1, r.pgend, r.purged⟩ :: { r with pgend := s - 1 } :: next,
              (rangeShrink r r.pgstart (s - 1) st₁).2) := by
          rw [ashmemPinLoop, if_neg hb1, if_pos (hin.mpr h2), if_neg hns, if_neg h4, if_neg h5, hmod]
          simp only [halloc, hr', Option.bind_eq_bind, Option.bind_some]
        refine ⟨_, _, _, hloop, .split h hf hse (by omega) (by omega) ?_ ?_⟩
        · intro ref; rw [hlist]; exact hl₁ ref
        · rw [hlist]; exact hn₁
    · obtain ⟨ret, l', st', heq, hpost⟩ := ih hf.tail h.tail
      have hni : ¬ pageRangeInRange r s e = true := fun hc => h2 (hin.mp hc)
      refine ⟨ret, r :: l', st', by simp [ashmemPinLoop, rangeBeforePage, h1, hni, heq],
        .cons h hf rfl (Nat.le_refl _) hrr (Nat.le_refl _) (.inl rfl) (.inl rfl) ?_ ?_ hpost⟩
      · ext p; simp only [Set.mem_sdiff, Set.mem_Icc]; omega
      · exact fun h0 => ⟨h0, fun h1 h2' => absurd ⟨h1, h2'⟩ h2⟩

/-- Where one pass of `ashmem_unpin` ends, on a descending list. -/
theorem unpinScan_spec (hd : Desc AshmemRange.pgstart AshmemRange.pgend l) (hse : s ≤ e) :
    match unpinScan s e l with
    | .subsumed => ∃ r ∈ l, r.pgstart ≤ s ∧ e ≤ r.pgend
    | .overlap b r c => l = b ++ r :: c ∧ r.pgstart ≤ e ∧ s ≤ r.pgend
    | .insert b c => l = b ++ c ∧ (∀ r ∈ b, e < r.pgstart) ∧ ∀ r ∈ c, r.pgend < s := by
  induction l with
  | nil => exact ⟨rfl, by simp, by simp⟩
  | cons r next ih =>
    obtain ⟨hrr, hlt, hdn⟩ := Desc.cons_iff.mp hd
    have hin := pageRangeInRange_iff (s := s) (e := e) hrr hse
    have hrec := ih hdn
    unfold unpinScan
    by_cases h1 : r.pgend < s
    · rw [if_pos (by simpa [rangeBeforePage] using h1)]
      refine ⟨rfl, by simp, ?_⟩
      simp only [List.mem_cons, forall_eq_or_imp]
      exact ⟨h1, fun b hb => by have := hlt b hb; omega⟩
    rw [if_neg (by simpa [rangeBeforePage] using h1)]
    by_cases h2 : r.pgstart ≤ s ∧ e ≤ r.pgend
    · rw [if_pos (by simpa [pageRangeSubsumedByRange] using h2)]
      exact ⟨r, by simp, h2⟩
    rw [if_neg (by simpa [pageRangeSubsumedByRange] using h2)]
    by_cases h3 : r.pgstart ≤ e ∧ s ≤ r.pgend
    · rw [if_pos (hin.mpr h3)]
      exact ⟨rfl, h3⟩
    rw [if_neg fun hc => h3 (hin.mp hc)]
    cases hs : unpinScan s e next with
    | subsumed =>
      rw [hs] at hrec
      obtain ⟨x, hx, hxs⟩ := hrec
      exact ⟨x, by simp [hx], hxs⟩
    | overlap b x c =>
      rw [hs] at hrec
      obtain ⟨rfl, hx⟩ := hrec
      exact ⟨rfl, hx⟩
    | insert b c =>
      rw [hs] at hrec
      obtain ⟨rfl, hb, hc⟩ := hrec
      refine ⟨rfl, ?_, hc⟩
      simp only [List.mem_cons, forall_eq_or_imp]
      exact ⟨by omega, hb⟩

/-- What `ashmem_unpin` on `s..e` does to the list `l`: the pages `s..e` join it, and every range
is still part of one range, which is purged if it was. `hit`: one range has all the pages
`s..e`, and it is purged if the ranges merged so far (`purged`) were. -/
structure UnpinPost (a : AreaId) (s e purged : Nat) (id : RangeId) (l : List AshmemRange)
    (st : Pinning) (l' : List AshmemRange) (st' : Pinning) : Prop where
  ok : ListOk a l' st'.lru.list
  cover : cover AshmemRange.pgstart AshmemRange.pgend l' =
    cover AshmemRange.pgstart AshmemRange.pgend l ∪ Set.Icc s e
  keep : ∀ r ∈ l, ∃ r' ∈ l', r'.pgstart ≤ r.pgstart ∧ r.pgend ≤ r'.pgend ∧
    (r.purged ≠ ashmemNotPurged → r'.purged ≠ ashmemNotPurged)
  hit : ∃ r' ∈ l', r'.pgstart ≤ s ∧ e ≤ r'.pgend ∧
    (purged ≠ ashmemNotPurged → r'.purged ≠ ashmemNotPurged)
  ends : ∀ r' ∈ l', (r'.pgstart = s ∨ ∃ r ∈ l, r'.pgstart = r.pgstart) ∧
    (r'.pgend = e ∨ ∃ r ∈ l, r'.pgend = r.pgend)
  ids : ∀ r' ∈ l', r'.id ∈ l.map AshmemRange.id ∨ r'.id = id
  lru : LruStep l l' st st'

/-- A range of the list has the pages already. -/
theorem UnpinPost.subsumed {r : AshmemRange} {purged : Nat} (h : ListOk a l st.lru.list)
    (hr : r ∈ l) (hs : r.pgstart ≤ s) (he : e ≤ r.pgend) (hp : purged = ashmemNotPurged) :
    UnpinPost a s e purged id l st l st where
  ok := h
  cover := by
    refine (Set.union_eq_left.mpr fun p hp => ?_).symm
    obtain ⟨h1, h2⟩ := Set.mem_Icc.mp hp
    exact ⟨r, hr, by omega, by omega⟩
  keep x hx := ⟨x, hx, Nat.le_refl _, Nat.le_refl _, fun h => h⟩
  hit := ⟨r, hr, hs, he, fun h => absurd hp h⟩
  ends x hx := ⟨.inr ⟨x, hx, rfl⟩, .inr ⟨x, hx, rfl⟩⟩
  ids x hx := .inl (List.mem_map_of_mem hx)
  lru := .refl h

/-- The range `r` is merged into the pages, and the rest of the list is searched again. -/
theorem UnpinPost.merge {r : AshmemRange} {b c : List AshmemRange} {purged : Nat}
    (h : ListOk a (b ++ r :: c) st.lru.list) (hs : r.pgstart ≤ e) (he : s ≤ r.pgend)
    (ih : UnpinPost a (min r.pgstart s) (max r.pgend e) (purged ||| r.purged) id (b ++ c)
      (rangeDel r st) l' st') :
    UnpinPost a s e purged id (b ++ r :: c) st l' st' where
  ok := ih.ok
  cover := by
    rw [ih.cover]
    ext p
    simp only [cover_append, cover_cons, Set.mem_union, Set.mem_Icc]
    constructor
    · rintro ((hb | hc) | hp)
      · exact .inl (.inl hb)
      · exact .inl (.inr (.inr hc))
      · by_cases hpr : r.pgstart ≤ p ∧ p ≤ r.pgend
        · exact .inl (.inr (.inl hpr))
        · exact .inr (by omega)
    · rintro ((hb | hr | hc) | hp)
      · exact .inl (.inl hb)
      · exact .inr (by omega)
      · exact .inl (.inr hc)
      · exact .inr (by omega)
  keep x hx := by
    have hx' : x = r ∨ x ∈ b ++ c := by
      simpa only [List.mem_append, List.mem_cons, or_left_comm] using hx
    rcases hx' with rfl | hx'
    · obtain ⟨r', hr', h1, h2, h3⟩ := ih.hit
      refine ⟨r', hr', by omega, by omega, fun hp => h3 fun h0 => hp ?_⟩
      exact (Nat.or_eq_zero_iff.mp h0).2
    · exact ih.keep x hx'
  hit := by
    obtain ⟨r', hr', h1, h2, h3⟩ := ih.hit
    refine ⟨r', hr', by omega, by omega, fun hp => h3 fun h0 => hp ?_⟩
    exact (Nat.or_eq_zero_iff.mp h0).1
  ends r' hr' := by
    have hmem : ∀ x ∈ b ++ c, x ∈ b ++ r :: c := fun x hx => by
      simp only [List.mem_append, List.mem_cons] at hx ⊢
      exact hx.imp_right .inr
    obtain ⟨h1, h2⟩ := ih.ends r' hr'
    constructor
    · rcases h1 with h1 | ⟨x, hx, h1⟩
      · rcases Nat.le_total r.pgstart s with hle | hle
        · exact .inr ⟨r, by simp, by rw [h1, Nat.min_eq_left hle]⟩
        · exact .inl (by rw [h1, Nat.min_eq_right hle])
      · exact .inr ⟨x, hmem x hx, h1⟩
    · rcases h2 with h2 | ⟨x, hx, h2⟩
      · rcases Nat.le_total r.pgend e with hle | hle
        · exact .inl (by rw [h2, Nat.max_eq_right hle])
        · exact .inr ⟨r, by simp, by rw [h2, Nat.max_eq_left hle]⟩
      · exact .inr ⟨x, hmem x hx, h2⟩
  ids r' hr' := by
    refine (ih.ids r' hr').imp_left fun hm => ?_
    simp only [List.map_append, List.map_cons, List.mem_append, List.mem_cons] at hm ⊢
    exact hm.imp_right .inr
  lru ref := by
    rw [ih.lru ref, mem_rangeDel h.nodup (h.onLru r (by simp))]
    simp only [List.map_append, List.map_cons, List.mem_append, List.mem_cons, not_or]
    tauto

/-- The pages are inserted as a range of their own. -/
theorem UnpinPost.insert {b c : List AshmemRange} {purged : Nat}
    (h : ListOk a (b ++ c) st.lru.list) (hf : Fresh a id (b ++ c) st) (hse : s ≤ e)
    (hlt : e < 2 ^ 64) (hb : ∀ r ∈ b, e < r.pgstart) (hc : ∀ r ∈ c, r.pgend < s)
    (hlru : ∀ ref, ref ∈ st'.lru.list ↔ ref ∈ st.lru.list ∨
      (ref = ⟨a, id⟩ ∧ purged = ashmemNotPurged)) (hn : st'.lru.list.Nodup) :
    UnpinPost a s e purged id (b ++ c) st (b ++ ⟨id, a, s, e, purged⟩ :: c) st' := by
  have hmem : ∀ x, x ∈ b ++ ⟨id, a, s, e, purged⟩ :: c ↔
      x = ⟨id, a, s, e, purged⟩ ∨ x ∈ b ++ c := fun x => by
    simp only [List.mem_append, List.mem_cons, or_left_comm]
  have hne : ∀ x ∈ b ++ c, x.ref ≠ ⟨a, id⟩ := fun x hx he => by
    simp only [AshmemRange.ref, RangeRef.mk.injEq] at he
    exact hf.ids (he.2 ▸ List.mem_map_of_mem hx)
  obtain ⟨hdb, hdc, hbc⟩ := Desc.append_iff.mp h.desc
  refine ⟨⟨?_, ?_, ?_, ?_, hn, ?_⟩, ?_, ?_, ?_, ?_, ?_, ?_⟩
  · refine Desc.append_iff.mpr ⟨hdb, Desc.cons_iff.mpr ⟨hse, hc, hdc⟩, fun x hx => ?_⟩
    simp only [List.mem_cons, forall_eq_or_imp]
    exact ⟨hb x hx, hbc x hx⟩
  · simp only [hmem, forall_eq_or_imp]
    exact ⟨hlt, h.bound⟩
  · simp only [hmem, forall_eq_or_imp]
    exact ⟨trivial, h.asma⟩
  · rw [List.map_append, List.map_cons, List.nodup_middle, ← List.map_append]
    exact List.nodup_cons.mpr ⟨hf.ids, h.ids⟩
  · simp only [hmem, forall_eq_or_imp]
    refine ⟨?_, fun x hx => ?_⟩
    · rw [hlru]
      show (⟨a, id⟩ : RangeRef) ∈ _ ∨ (⟨a, id⟩ : RangeRef) = _ ∧ _ ↔ _
      simp [hf.lru]
    · rw [hlru, ← h.onLru x hx]
      simp [hne x hx]
  · ext p
    simp only [cover_append, cover_cons, Set.mem_union]
    rw [or_comm (b := p ∈ Redroid.cover _ _ c), or_assoc]
  · intro x hx
    exact ⟨x, (hmem x).mpr (.inr hx), Nat.le_refl _, Nat.le_refl _, fun h => h⟩
  · exact ⟨_, (hmem _).mpr (.inl rfl), Nat.le_refl _, Nat.le_refl _, fun h => h⟩
  · simp only [hmem, forall_eq_or_imp]
    exact ⟨⟨.inl trivial, .inl trivial⟩, fun x hx => ⟨.inr ⟨x, hx, rfl⟩, .inr ⟨x, hx, rfl⟩⟩⟩
  · simp only [hmem, forall_eq_or_imp]
    exact ⟨.inr trivial, fun x hx => .inl (List.mem_map_of_mem hx)⟩
  · intro ref
    have hl := LruStep.refl h ref
    simp only [hmem, exists_eq_or_imp]
    show _ ↔ _ ∨ ((⟨a, id⟩ : RangeRef) = ref ∧ _) ∨ _
    rw [hlru, eq_comm (a := (⟨a, id⟩ : RangeRef)), or_left_comm, ← hl, or_comm]

theorem ashmemUnpinFrom_spec {purged : Nat} (h : ListOk a l st.lru.list) (hf : Fresh a id l st)
    (hse : s ≤ e) (hlt : e < 2 ^ 64)
    (hp : purged = ashmemNotPurged ∨ ∃ p, s ≤ p ∧ p ≤ e ∧
      p ∉ cover AshmemRange.pgstart AshmemRange.pgend l) :
    ∃ l' st', ashmemUnpinFrom a l s e purged st = some (l', st') ∧
      UnpinPost a s e purged id l st l' st' := by
  induction hlen : l.length using Nat.strong_induction_on generalizing l s e purged st with
  | _ n ih =>
  have hscan := unpinScan_spec h.desc hse
  unfold ashmemUnpinFrom
  split <;> rename_i hs <;> rw [hs] at hscan
  · obtain ⟨r, hr, hrs, hre⟩ := hscan
    refine ⟨l, st, rfl, .subsumed h hr hrs hre (hp.resolve_right ?_)⟩
    rintro ⟨p, hsp, hpe, hp⟩
    exact hp ⟨r, hr, by omega, by omega⟩
  · rename_i b r c
    obtain ⟨rfl, hrs, hre⟩ := hscan
    have hrr := h.desc.nonempty r (by simp)
    have hrb := h.bound r (by simp)
    have hout : r.pgstart ∉ cover AshmemRange.pgstart AshmemRange.pgend (b ++ c) := by
      rintro ⟨x, hx, hx1, hx2⟩
      have hxr : x = r := h.desc.eq_of_common (by
        simp only [List.mem_append, List.mem_cons] at hx ⊢
        exact hx.imp_right .inr) (by simp) hx1 hx2 (Nat.le_refl _) hrr
      have hid := h.ids
      rw [List.map_append, List.map_cons, List.nodup_middle, ← List.map_append] at hid
      exact (List.nodup_cons.mp hid).1 (hxr ▸ List.mem_map_of_mem hx)
    obtain ⟨l', st', heq, hpost⟩ := ih (b ++ c).length (by rw [← hlen]; simp) h.delMid
      (Fresh.delMid h hf) (s := min r.pgstart s) (e := max r.pgend e) (by omega) (by omega)
      (show purged ||| r.purged = ashmemNotPurged ∨ _ from
        .inr ⟨r.pgstart, by omega, by omega, hout⟩) rfl
    exact ⟨l', st', heq, .merge h hrs hre hpost⟩
  · rename_i b c
    obtain ⟨rfl, hb, hc⟩ := hscan
    obtain ⟨st₁, halloc, hl₁, hn₁⟩ := rangeAlloc_spec h.nodup hf.newRange hf.lru purged s e
    refine ⟨_, st₁, by simp [halloc], .insert h hf hse hlt hb hc hl₁ hn₁⟩

/-- **`ashmem_unpin`** uses the preallocated range at most once and does what `UnpinPost` says. -/
theorem ashmemUnpin_spec (hf : Fresh a id l st) (h : ListOk a l st.lru.list) (hse : s ≤ e)
    (hlt : e < 2 ^ 64) :
    ∃ l' st', ashmemUnpin a l s e st = some (0, l', st') ∧
      UnpinPost a s e ashmemNotPurged id l st l' st' := by
  obtain ⟨l', st', heq, hpost⟩ := ashmemUnpinFrom_spec h hf hse hlt (.inl rfl)
  exact ⟨l', st', by simp [ashmemUnpin, heq], hpost⟩

/-- **`ashmem_get_pin_status`**: unpinned exactly if one of the pages is on the list. -/
theorem ashmemGetPinStatus_iff (hd : Desc AshmemRange.pgstart AshmemRange.pgend l) (hse : s ≤ e) :
    ashmemGetPinStatus l s e = ashmemIsUnpinned ↔
      (cover AshmemRange.pgstart AshmemRange.pgend l ∩ Set.Icc s e).Nonempty := by
  have hp : ¬ ashmemIsPinned = ashmemIsUnpinned := by decide
  induction l with
  | nil => simp [ashmemGetPinStatus, hp]
  | cons r next ih =>
    obtain ⟨hrr, hlt, hdn⟩ := Desc.cons_iff.mp hd
    have hin := pageRangeInRange_iff (s := s) (e := e) hrr hse
    unfold ashmemGetPinStatus
    by_cases h1 : r.pgend < s
    · rw [if_pos (by simpa [rangeBeforePage] using h1)]
      refine ⟨fun h => absurd h hp, ?_⟩
      rintro ⟨p, ⟨x, hx, hxp⟩, hps, hpe⟩
      rcases List.mem_cons.mp hx with rfl | hx
      · omega
      · have := hlt x hx
        omega
    rw [if_neg (by simpa [rangeBeforePage] using h1)]
    by_cases h2 : r.pgstart ≤ e ∧ s ≤ r.pgend
    · rw [if_pos (hin.mpr h2)]
      exact ⟨fun _ => ⟨max r.pgstart s, ⟨r, by simp, by omega, by omega⟩, by omega, by omega⟩,
        fun _ => rfl⟩
    · rw [if_neg fun hc => h2 (hin.mp hc)]
      refine (ih hdn).trans ?_
      rw [cover_cons, Set.union_inter_distrib_right]
      have hempty : Set.Icc r.pgstart r.pgend ∩ Set.Icc s e = ∅ := by
        ext p
        simp only [Set.mem_inter_iff, Set.mem_Icc, Set.mem_empty_iff_false, iff_false]
        omega
      rw [hempty, Set.empty_union]

end Spec

end Redroid.Ashmem
