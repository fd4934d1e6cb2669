import Mathlib.Data.ZMod.Basic
import Mathlib.Tactic.Ring
import Redroid.Ashmem.Shrink

/-!
# The accounting of the LRU list

`range_alloc`, `range_del`, `range_shrink` and the shrinker each change the list of an area, the
LRU list and `lru_count` on their own. Nothing here depends on what the page numbers of a range
are: a request may wrap, and `range_size` with it.

* `Edits`: every operation on the list of an area is a sequence of these four.
* `Exact`: the LRU list has each range that is not purged once and nothing else, and `lru_count`
  is the sum of their sizes, in `unsigned long`.
* `Scans`, `scanSys`: the module with the variable `freed` and the return value of every call of
  `ashmem_shrink_scan`. Ghost: by how much a call has decreased `lru_count`, and when each entry
  of the LRU list was added.
* `scanSys_exact`: over every run, the accounting is exact, a call that got the mutex returns by
  how much it decreased `lru_count`, and it takes the entry that was added first.
-/

namespace Redroid.Ashmem

/-! ## Sizes, modulo the word size -/

/-- `c - x` in a word. -/
theorem cast_sub_mod {n c x : Nat} (h : x ≤ n) :
    (((c + (n - x)) % n : Nat) : ZMod n) = (c : ZMod n) - x := by
  rw [ZMod.natCast_mod, Nat.cast_add, Nat.cast_sub h, ZMod.natCast_self, zero_sub, sub_eq_add_neg]

theorem rangeSize_lt (r : AshmemRange) : rangeSize r < 2 ^ 64 := Nat.mod_lt _ (by decide)

theorem cast_lruAdd (r : AshmemRange) (lru : Lru) :
    ((lruAdd r lru).count : ZMod (2 ^ 64)) = lru.count + rangeSize r := by
  rw [lruAdd, ZMod.natCast_mod, Nat.cast_add]

theorem cast_lruDel (r : AshmemRange) (lru : Lru) :
    ((lruDel r lru).count : ZMod (2 ^ 64)) = lru.count - rangeSize r :=
  cast_sub_mod (rangeSize_lt r).le

/-- The pages of the ranges of `l` that are not purged. -/
def lruPages (l : List AshmemRange) : Nat := ((l.filter rangeOnLru).map rangeSize).sum

theorem lruPages_append (b c : List AshmemRange) : lruPages (b ++ c) = lruPages b + lruPages c := by
  simp [lruPages]

theorem lruPages_cons (r : AshmemRange) (c : List AshmemRange) :
    lruPages (r :: c) = (if rangeOnLru r then rangeSize r else 0) + lruPages c := by
  unfold lruPages
  by_cases h : rangeOnLru r <;> simp [h]

theorem lruPages_middle (b c : List AshmemRange) (r : AshmemRange) :
    lruPages (b ++ r :: c) = (if rangeOnLru r then rangeSize r else 0) + lruPages (b ++ c) := by
  rw [lruPages_append, lruPages_cons, lruPages_append, Nat.add_left_comm]

/-! ## The edits of one list -/

/-- What an operation on the area `a` makes of its list and of the LRU list, range by range. -/
inductive Edits (a : AreaId) : List AshmemRange → Pinning → List AshmemRange → Pinning → Prop
  | done (l : List AshmemRange) (st : Pinning) : Edits a l st l st
  | del (b : List AshmemRange) (r : AshmemRange) (c : List AshmemRange) {st st' : Pinning}
    {l' : List AshmemRange} :
    Edits a (b ++ c) (rangeDel r st) l' st' → Edits a (b ++ r :: c) st l' st'
  | shrink (b : List AshmemRange) (r : AshmemRange) (c : List AshmemRange) (x y : Nat)
    {st st' : Pinning} {l' : List AshmemRange} :
    Edits a (b ++ (rangeShrink r x y st).1 :: c) (rangeShrink r x y st).2 l' st' →
    Edits a (b ++ r :: c) st l' st'
  | alloc (b c : List AshmemRange) {new : AshmemRange} {purged x y : Nat} {st st₁ st' : Pinning}
    {l' : List AshmemRange} : rangeAlloc a purged x y st = some (new, st₁) →
    Edits a (b ++ new :: c) st₁ l' st' → Edits a (b ++ c) st l' st'
  /-- The shrinker marks a range. -/
  | purge (b : List AshmemRange) (r : AshmemRange) (c : List AshmemRange) {st st' : Pinning}
    {l' : List AshmemRange} : rangeOnLru r = true →
    Edits a (b ++ { r with purged := ashmemWasPurged } :: c) { st with lru := lruDel r st.lru }
      l' st' →
    Edits a (b ++ r :: c) st l' st'

section Edits

variable {a : AreaId} {l l' : List AshmemRange} {st st' : Pinning} {ret : Nat}

theorem ashmemPinLoop_edits {s e : Nat} (b : List AshmemRange)
    (h : ashmemPinLoop a s e l st = some (ret, l', st')) : Edits a (b ++ l) st (b ++ l') st' := by
  induction l generalizing st ret l' b with
  | nil =>
    cases h
    exact .done _ _
  | cons r next ih =>
    simp only [ashmemPinLoop] at h
    split at h
    · cases h
      exact .done _ _
    split at h
    · split at h
      · obtain ⟨⟨ret₁, l₁, st₁⟩, hrec, h⟩ := Option.bind_eq_some_iff.mp h
        cases h
        exact .del b r next (ih b hrec)
      split at h
      · obtain ⟨⟨ret₁, l₁, st₁⟩, hrec, h⟩ := Option.bind_eq_some_iff.mp h
        cases h
        have := ih (b ++ [(rangeShrink r ((e + 1) % 2 ^ 64) r.pgend st).1]) hrec
        rw [List.append_assoc, List.append_assoc] at this
        exact .shrink b r next _ _ this
      split at h
      · obtain ⟨⟨ret₁, l₁, st₁⟩, hrec, h⟩ := Option.bind_eq_some_iff.mp h
        cases h
        have := ih (b ++ [(rangeShrink r r.pgstart (s - 1) st).1]) hrec
        rw [List.append_assoc, List.append_assoc] at this
        exact .shrink b r next _ _ this
      · obtain ⟨⟨new, st₁⟩, halloc, h⟩ := Option.bind_eq_some_iff.mp h
        cases h
        refine .alloc b (r :: next) halloc ?_
        have hs : Edits a ((b ++ [new]) ++ r :: next) st₁ _ _ :=
          .shrink (b ++ [new]) r next r.pgstart (s - 1) (.done _ _)
        rwa [List.append_assoc, List.append_assoc] at hs
    · obtain ⟨⟨ret₁, l₁, st₁⟩, hrec, h⟩ := Option.bind_eq_some_iff.mp h
      cases h
      have := ih (b ++ [r]) hrec
      rwa [List.append_assoc, List.append_assoc] at this

/-- The split is the last thing that `ashmem_pin` does, so the preallocated range is there. -/
theorem ashmemPinLoop_isSome {s e : Nat} (h : st.newRange.isSome) :
    (ashmemPinLoop a s e l st).isSome := by
  induction l generalizing st with
  | nil => rfl
  | cons r next ih =>
    have hrec : ∀ st₁ : Pinning, st₁.newRange.isSome → ∀ f : Nat × List AshmemRange × Pinning →
        Nat × List AshmemRange × Pinning,
        ((ashmemPinLoop a s e next st₁).bind fun x => some (f x)).isSome := fun st₁ h₁ f => by
      obtain ⟨x, hx⟩ := Option.isSome_iff_exists.mp (ih h₁)
      rw [hx]
      rfl
    simp only [ashmemPinLoop]
    split
    · rfl
    split
    · split
      · exact hrec (rangeDel r st) h _
      split
      · refine hrec _ ?_ _
        rwa [(rangeShrink_lru _ _ _ _).2.1]
      split
      · refine hrec _ ?_ _
        rwa [(rangeShrink_lru _ _ _ _).2.1]
      · obtain ⟨id, hid⟩ := Option.isSome_iff_exists.mp h
        simp [rangeAlloc, hid]
    · exact hrec st h _

theorem unpinScan_insert {s e : Nat} {b c : List AshmemRange} (h : unpinScan s e l = .insert b c) :
    l = b ++ c := by
  induction l generalizing b with
  | nil =>
    cases h
    rfl
  | cons x next ih =>
    simp only [unpinScan] at h
    split at h
    · cases h
      rfl
    split at h
    · cases h
    split at h
    · cases h
    · cases hs : unpinScan s e next with
      | subsumed => rw [hs] at h; cases h
      | overlap b' r' a' => rw [hs] at h; cases h
      | insert b' a' =>
        rw [hs] at h
        cases h
        rw [ih hs]
        rfl

theorem ashmemUnpinFrom_edits {s e purged : Nat}
    (h : ashmemUnpinFrom a l s e purged st = some (l', st')) : Edits a l st l' st' := by
  induction hlen : l.length using Nat.strong_induction_on generalizing l s e purged st with
  | _ n ih =>
  unfold ashmemUnpinFrom at h
  split at h <;> rename_i hs
  · cases h
    exact .done _ _
  · rename_i b r c
    obtain ⟨rfl, -⟩ := unpinScan_overlap hs
    exact .del b r c (ih (b ++ c).length (by rw [← hlen]; simp) h rfl)
  · rename_i b c
    obtain ⟨⟨new, st₁⟩, halloc, h⟩ := Option.bind_eq_some_iff.mp h
    cases h
    rw [unpinScan_insert hs]
    exact .alloc b c halloc (.done _ _)

theorem ashmemUnpinFrom_isSome {s e purged : Nat} (h : st.newRange.isSome) :
    (ashmemUnpinFrom a l s e purged st).isSome := by
  induction hlen : l.length using Nat.strong_induction_on generalizing l s e purged st with
  | _ n ih =>
  unfold ashmemUnpinFrom
  split <;> rename_i hs
  · rfl
  · rename_i b r c
    obtain ⟨rfl, -⟩ := unpinScan_overlap hs
    have hdel : (rangeDel r st).newRange.isSome := h
    exact ih (b ++ c).length (by rw [← hlen]; simp) hdel rfl
  · obtain ⟨id, hid⟩ := Option.isSome_iff_exists.mp h
    simp [rangeAlloc, hid]

/-- The loop of `ashmem_release`. -/
theorem release_edits (l : List AshmemRange) (st : Pinning) :
    Edits a l st [] (l.foldl (fun st range => rangeDel range st) st) := by
  induction l generalizing st with
  | nil => exact .done _ _
  | cons r next ih => exact .del [] r next (ih (rangeDel r st))

end Edits

/-! ## The accounting along the edits -/

/-- `new` is `old` with entries taken out and at most one entry added at the end, one that was not
there. -/
def Appends (old new : List RangeRef) : Prop :=
  ∃ kept added, new = kept ++ added ∧ kept.Sublist old ∧ added.length ≤ 1 ∧ ∀ ref ∈ added, ref ∉ old

theorem Appends.refl (l : List RangeRef) : Appends l l :=
  ⟨l, [], (List.append_nil l).symm, List.Sublist.refl l, Nat.zero_le 1, by simp⟩

/-- The state of the operation on the area `a`, with the list `l` by now: `old` was the LRU list
before it, and `others` are the pages of the other areas on it. -/
structure Acct (a : AreaId) (old : List RangeRef) (others : ZMod (2 ^ 64)) (l : List AshmemRange)
    (st : Pinning) : Prop where
  asma : ∀ r ∈ l, r.asma = a
  ids : (l.map AshmemRange.id).Nodup
  new : ∀ id ∈ st.newRange, id ∉ l.map AshmemRange.id ∧ ⟨a, id⟩ ∉ old
  nodup : st.lru.list.Nodup
  mem : ∀ ref, ref ∈ st.lru.list ↔
    (ref.asma ≠ a ∧ ref ∈ old) ∨ ∃ r ∈ l, r.ref = ref ∧ rangeOnLru r = true
  lt : st.lru.count < 2 ^ 64
  count : (st.lru.count : ZMod (2 ^ 64)) = others + lruPages l
  order : ∃ kept added, st.lru.list = kept ++ added ∧ kept.Sublist old ∧ added.length ≤ 1 ∧
    (∀ ref ∈ added, ref ∉ old) ∧ (st.newRange.isSome → added = [])

section Acct

variable {a : AreaId} {old : List RangeRef} {others : ZMod (2 ^ 64)} {l l' b c : List AshmemRange}
  {st st' : Pinning} {r : AshmemRange}

/-- An entry leaves the list. -/
theorem order_erase {L : List RangeRef} {P : Prop} (ref : RangeRef)
    (h : ∃ kept added, L = kept ++ added ∧ kept.Sublist old ∧ added.length ≤ 1 ∧
      (∀ ref ∈ added, ref ∉ old) ∧ (P → added = [])) :
    ∃ kept added, L.erase ref = kept ++ added ∧ kept.Sublist old ∧ added.length ≤ 1 ∧
      (∀ ref ∈ added, ref ∉ old) ∧ (P → added = []) := by
  obtain ⟨kept, added, rfl, hk, h1, hn, he⟩ := h
  rw [List.erase_append]
  split
  · exact ⟨kept.erase ref, added, rfl, List.erase_sublist.trans hk, h1, hn, he⟩
  · refine ⟨kept, added.erase ref, rfl, hk, (List.length_erase_le).trans h1,
      fun x hx => hn x (List.mem_of_mem_erase hx), fun hp => ?_⟩
    rw [he hp]
    rfl

/-- The range `r` is not in the rest of the list. -/
theorem Acct.ref_notMem (h : Acct a old others (b ++ r :: c) st) :
    ∀ x ∈ b ++ c, x.ref ≠ r.ref := by
  have hid := h.ids
  rw [List.map_append, List.map_cons, List.nodup_middle, ← List.map_append] at hid
  intro x hx
  exact ref_ne fun he => (List.nodup_cons.mp hid).1 (he ▸ List.mem_map_of_mem hx)

/-- The range `r` is not on the LRU list any more: `lru_del`, with `l'` the list without it or
with it marked purged. -/
theorem Acct.lruDel (h : Acct a old others (b ++ r :: c) st) (hr : rangeOnLru r = true)
    (hasma : ∀ x ∈ l', x.asma = a) (hids : (l'.map AshmemRange.id).Nodup)
    (hnew : ∀ id ∈ l'.map AshmemRange.id, id ∈ (b ++ r :: c).map AshmemRange.id)
    (hmem : ∀ x : AshmemRange, rangeOnLru x = true → (x ∈ l' ↔ x ∈ b ++ c))
    (hpages : lruPages l' = lruPages (b ++ c)) :
    Acct a old others l' { st with lru := Ashmem.lruDel r st.lru } where
  asma := hasma
  ids := hids
  new id hid := ⟨fun hm => (h.new id hid).1 (hnew id hm), (h.new id hid).2⟩
  nodup := h.nodup.erase _
  mem ref := by
    rw [mem_lruDel h.nodup, h.mem]
    constructor
    · rintro ⟨hm | ⟨x, hx, rfl, hp⟩, hne⟩
      · exact .inl hm
      · refine .inr ⟨x, (hmem x hp).mpr ?_, rfl, hp⟩
        simp only [List.mem_append, List.mem_cons] at hx ⊢
        rcases hx with hx | rfl | hx
        · exact .inl hx
        · exact absurd rfl hne
        · exact .inr hx
    · rintro (⟨hne, hm⟩ | ⟨x, hx, rfl, hp⟩)
      · refine ⟨.inl ⟨hne, hm⟩, fun he => hne ?_⟩
        rw [he]
        exact h.asma r (by simp)
      · have hx' := (hmem x hp).mp hx
        refine ⟨.inr ⟨x, ?_, rfl, hp⟩, h.ref_notMem x hx'⟩
        simp only [List.mem_append, List.mem_cons] at hx' ⊢
        exact hx'.imp_right .inr
  lt := Nat.mod_lt _ (by decide)
  count := by
    have hc := h.count
    rw [lruPages_middle, if_pos hr] at hc
    rw [cast_lruDel, hc, hpages]
    push_cast
    ring
  order := order_erase r.ref h.order

/-- `range_del`. -/
theorem Acct.del (h : Acct a old others (b ++ r :: c) st) :
    Acct a old others (b ++ c) (rangeDel r st) := by
  have hsub : (b ++ c).Sublist (b ++ r :: c) :=
    (List.Sublist.refl b).append (List.sublist_cons_self r c)
  have hids : ((b ++ c).map AshmemRange.id).Nodup := (hsub.map _).nodup h.ids
  by_cases hr : rangeOnLru r = true
  · unfold rangeDel
    rw [if_pos hr]
    exact h.lruDel hr (fun x hx => h.asma x (hsub.subset hx)) hids
      (fun id hid => (hsub.map _).subset hid) (fun _ _ => Iff.rfl) rfl
  · unfold rangeDel
    rw [if_neg hr]
    refine ⟨fun x hx => h.asma x (hsub.subset hx), hids,
      fun id hid => ⟨fun hm => (h.new id hid).1 ((hsub.map _).subset hm), (h.new id hid).2⟩,
      h.nodup, fun ref => ?_, h.lt, ?_, h.order⟩
    · rw [h.mem]
      refine or_congr Iff.rfl ⟨?_, fun ⟨x, hx, hp⟩ => ⟨x, hsub.subset hx, hp⟩⟩
      rintro ⟨x, hx, he, hp⟩
      refine ⟨x, ?_, he, hp⟩
      simp only [List.mem_append, List.mem_cons] at hx ⊢
      rcases hx with hx | rfl | hx
      · exact .inl hx
      · exact absurd hp hr
      · exact .inr hx
    · rw [h.count, lruPages_middle, if_neg hr, Nat.zero_add]

/-- The shrinker marks `r` and takes it off the LRU list. -/
theorem Acct.purge (h : Acct a old others (b ++ r :: c) st) (hr : rangeOnLru r = true) :
    Acct a old others (b ++ { r with purged := ashmemWasPurged } :: c)
      { st with lru := Ashmem.lruDel r st.lru } := by
  have hoff : rangeOnLru { r with purged := ashmemWasPurged } = false := rfl
  have hids : (b ++ { r with purged := ashmemWasPurged } :: c).map AshmemRange.id =
      (b ++ r :: c).map AshmemRange.id := by simp
  refine h.lruDel hr (fun x hx => ?_) (hids ▸ h.ids) (fun id hid => hids ▸ hid) (fun x hx => ?_) ?_
  · simp only [List.mem_append, List.mem_cons] at hx
    rcases hx with hx | rfl | hx
    · exact h.asma x (by simp [hx])
    · exact h.asma r (by simp)
    · exact h.asma x (by simp [hx])
  · simp only [List.mem_append, List.mem_cons]
    refine ⟨?_, fun h => h.imp_right .inr⟩
    rintro (hb | rfl | hc)
    · exact .inl hb
    · rw [hoff] at hx
      cases hx
    · exact .inr hc
  · rw [lruPages_middle, hoff]
    simp

/-- `range_shrink`. -/
theorem Acct.shrink (h : Acct a old others (b ++ r :: c) st) (x y : Nat) :
    Acct a old others (b ++ (rangeShrink r x y st).1 :: c) (rangeShrink r x y st).2 := by
  obtain ⟨hr', hnew, hlist⟩ := rangeShrink_lru st r x y
  have hon : rangeOnLru { r with pgstart := x, pgend := y } = rangeOnLru r := rfl
  have hids : (b ++ { r with pgstart := x, pgend := y } :: c).map AshmemRange.id =
      (b ++ r :: c).map AshmemRange.id := by simp
  have hcount : (rangeShrink r x y st).2.lru.count < 2 ^ 64 ∧
      ((rangeShrink r x y st).2.lru.count : ZMod (2 ^ 64)) =
        others + lruPages (b ++ { r with pgstart := x, pgend := y } :: c) := by
    have hc := h.count
    rw [lruPages_middle] at hc ⊢
    rw [hon]
    unfold rangeShrink
    simp only [hon]
    by_cases hr : rangeOnLru r = true
    · simp only [if_pos hr] at hc ⊢
      refine ⟨Nat.mod_lt _ (by decide), ?_⟩
      show (((st.lru.count + (2 ^ 64 - (rangeSize r + (2 ^ 64 - rangeSize _)) % 2 ^ 64)) % 2 ^ 64
        : Nat) : ZMod (2 ^ 64)) = _
      rw [cast_sub_mod (Nat.mod_lt _ (by decide)).le, cast_sub_mod (rangeSize_lt _).le, hc]
      push_cast
      ring
    · simp only [if_neg hr] at hc ⊢
      exact ⟨h.lt, hc⟩
  rw [hr']
  refine ⟨fun z hz => ?_, hids ▸ h.ids, fun id hid => ?_, hlist ▸ h.nodup, fun ref => ?_,
    hcount.1, hcount.2, ?_⟩
  · simp only [List.mem_append, List.mem_cons] at hz
    rcases hz with hz | rfl | hz
    · exact h.asma z (by simp [hz])
    · exact h.asma r (by simp)
    · exact h.asma z (by simp [hz])
  · rw [hnew] at hid
    rw [hids]
    exact h.new id hid
  · rw [hlist, h.mem]
    refine or_congr Iff.rfl ?_
    simp only [List.mem_append, List.mem_cons, or_and_right, exists_or, exists_eq_left]
    exact Iff.rfl
  · rw [hlist, hnew]
    exact h.order

/-- `range_alloc`. -/
theorem Acct.alloc {new : AshmemRange} {st₁ : Pinning} {purged x y : Nat}
    (h : Acct a old others (b ++ c) st) (heq : rangeAlloc a purged x y st = some (new, st₁)) :
    Acct a old others (b ++ new :: c) st₁ := by
  unfold rangeAlloc at heq
  cases hn : st.newRange with
  | none =>
    rw [hn] at heq
    cases heq
  | some id =>
    rw [hn] at heq
    cases heq
    obtain ⟨hid, hold⟩ := h.new id hn
    have hasma : ∀ z ∈ b ++ (⟨id, a, x, y, purged⟩ : AshmemRange) :: c, z.asma = a := fun z hz => by
      simp only [List.mem_append, List.mem_cons] at hz
      rcases hz with hz | rfl | hz
      · exact h.asma z (by simp [hz])
      · rfl
      · exact h.asma z (by simp [hz])
    have hids : ((b ++ (⟨id, a, x, y, purged⟩ : AshmemRange) :: c).map AshmemRange.id).Nodup := by
      rw [List.map_append, List.map_cons, List.nodup_middle, ← List.map_append]
      exact List.nodup_cons.mpr ⟨hid, h.ids⟩
    have hmid : ∀ P : AshmemRange → Prop,
        (∃ z ∈ b ++ (⟨id, a, x, y, purged⟩ : AshmemRange) :: c, P z) ↔
          (∃ z ∈ b ++ c, P z) ∨ P ⟨id, a, x, y, purged⟩ := fun P => by
      simp only [List.mem_append, List.mem_cons, or_and_right, exists_or, exists_eq_left]
      rw [or_assoc, or_comm (a := P _)]
    have hnot : (⟨a, id⟩ : RangeRef) ∉ st.lru.list := fun hm => by
      rcases (h.mem _).mp hm with ⟨hne, -⟩ | ⟨z, hz, he, -⟩
      · exact hne rfl
      · simp only [AshmemRange.ref, RangeRef.mk.injEq] at he
        exact hid (he.2 ▸ List.mem_map_of_mem hz)
    by_cases hon : rangeOnLru ⟨id, a, x, y, purged⟩ = true
    · rw [if_pos hon]
      refine ⟨hasma, hids, by simp, ?_, fun ref => ?_, Nat.mod_lt _ (by decide), ?_, ?_⟩
      · exact List.nodup_append.mpr ⟨h.nodup, by simp, fun u hu w hw he => by
          rw [he, List.mem_singleton.mp hw] at hu
          exact hnot hu⟩
      · rw [hmid, ← or_assoc, ← h.mem]
        simp only [lruAdd, List.mem_append, List.mem_singleton, hon, and_true, eq_comm (a := ref)]
      · rw [cast_lruAdd, h.count, lruPages_middle, if_pos hon]
        push_cast
        ring
      · obtain ⟨kept, added, hl, hk, -, -, he⟩ := h.order
        rw [he (by rw [hn]; rfl), List.append_nil] at hl
        refine ⟨kept, [⟨a, id⟩], ?_, hk, Nat.le_refl 1, ?_, by simp⟩
        · simp only [lruAdd, hl]
          rfl
        · intro ref hm
          rw [List.mem_singleton.mp hm]
          exact hold
    · rw [if_neg hon]
      refine ⟨hasma, hids, by simp, h.nodup, fun ref => ?_, h.lt, ?_, ?_⟩
      · rw [hmid, h.mem]
        simp only [hon, and_false, or_false, Bool.false_eq_true]
      · rw [h.count, lruPages_middle, if_neg hon, Nat.zero_add]
      · obtain ⟨kept, added, hl, hk, h1, hn', -⟩ := h.order
        exact ⟨kept, added, hl, hk, h1, hn', by simp⟩

/-- The accounting along all edits of an operation. -/
theorem Acct.edits (h : Acct a old others l st) (he : Edits a l st l' st') :
    Acct a old others l' st' := by
  induction he with
  | done l st => exact h
  | del b r c _ ih => exact ih h.del
  | shrink b r c x y _ ih => exact ih (h.shrink x y)
  | alloc b c heq _ ih => exact ih (h.alloc heq)
  | purge b r c hr _ ih => exact ih (h.purge hr)

end Acct

/-! ## All areas -/

namespace Shared

/-- The `unpinned_list` of the area `a`; empty if `a` is not open. -/
def ranges (S : Shared) (a : AreaId) : List AshmemRange := (S.areas a).elim [] (·.unpinnedList)

/-- `range_size` of the range that `ref` points to. -/
def pages (S : Shared) (ref : RangeRef) : Nat := (S.deref ref).elim 0 fun x => rangeSize x.2

/-- The LRU list has every range of an open area that is not purged once, and nothing else, and
`lru_count` is the sum of their sizes in `unsigned long`. -/
structure Exact (S : Shared) : Prop where
  asma : ∀ a, ∀ r ∈ S.ranges a, r.asma = a
  ids : ∀ a, ((S.ranges a).map AshmemRange.id).Nodup
  nodup : S.lru.list.Nodup
  mem : ∀ ref, ref ∈ S.lru.list ↔ ∃ r ∈ S.ranges ref.asma, r.ref = ref ∧ rangeOnLru r = true
  count : S.lru.count = (S.lru.list.map S.pages).sum % 2 ^ 64

variable {S S' : Shared} {a : AreaId} {asma : AshmemArea}

theorem ranges_eq (ha : asma ∈ S.areas a) : S.ranges a = asma.unpinnedList := by
  rw [ranges, Option.mem_def.mp ha]
  rfl

theorem ranges_setArea {asma' : AshmemArea} :
    (S.setArea a asma').ranges = Function.update S.ranges a asma'.unpinnedList := by
  funext b
  by_cases hab : b = a
  · subst hab
    simp [ranges, setArea]
  · simp [ranges, setArea, hab]

theorem ranges_release : (S.release a asma).ranges = Function.update S.ranges a [] := by
  funext b
  by_cases hab : b = a
  · subst hab
    simp [ranges, release]
  · simp [ranges, release, hab]

theorem pages_eq (ref : RangeRef) :
    S.pages ref = ((S.ranges ref.asma).find? fun r => r.id == ref.id).elim 0 rangeSize := by
  unfold pages deref ranges
  cases S.areas ref.asma with
  | none => rfl
  | some asma =>
    simp only [Option.bind_eq_bind, Option.bind_some, Option.elim_some]
    cases asma.unpinnedList.find? fun r => r.id == ref.id <;> rfl

theorem pages_congr (h : S'.ranges a = S.ranges a) {ref : RangeRef} (hr : ref.asma = a) :
    S'.pages ref = S.pages ref := by
  rw [pages_eq, pages_eq, hr, h]

/-- The range that a pointer to a range of the list finds. -/
theorem pages_of_mem {r : AshmemRange} (hids : ((S.ranges a).map AshmemRange.id).Nodup)
    (hasma : r.asma = a) (hr : r ∈ S.ranges a) : S.pages r.ref = rangeSize r := by
  rw [pages_eq]
  show ((S.ranges r.asma).find? fun x => x.id == r.id).elim 0 rangeSize = rangeSize r
  rw [hasma]
  cases hf : (S.ranges a).find? fun x => x.id == r.id with
  | none => exact absurd (List.find?_eq_none.mp hf r hr) (by simp)
  | some x =>
    have hx : x = r := List.inj_on_of_nodup_map hids (List.mem_of_find?_eq_some hf) hr
      (by simpa using List.find?_some hf)
    rw [hx]
    rfl

/-- The pages on the LRU list: those of the other areas, and those of `a`. -/
theorem sum_pages {L : List RangeRef} {l : List AshmemRange} (hn : L.Nodup)
    (hl : S.ranges a = l) (hasma : ∀ r ∈ l, r.asma = a) (hids : (l.map AshmemRange.id).Nodup)
    (hmem : ∀ ref ∈ L, ref.asma = a → ∃ r ∈ l, r.ref = ref ∧ rangeOnLru r = true)
    (hmem' : ∀ r ∈ l, rangeOnLru r = true → r.ref ∈ L) :
    (L.map S.pages).sum = ((L.filter fun ref => ref.asma != a).map S.pages).sum + lruPages l := by
  have hself : (L.filter fun ref => ! (ref.asma != a)).Perm
      ((l.filter rangeOnLru).map AshmemRange.ref) := by
    refine (List.perm_ext_iff_of_nodup (hn.filter _) ?_).mpr fun ref => ?_
    · refine (List.Nodup.of_map AshmemRange.id (hids.sublist ?_)).map_on ?_
      · exact List.filter_sublist.map _
      · intro x hx y hy he
        simp only [AshmemRange.ref, RangeRef.mk.injEq] at he
        exact List.inj_on_of_nodup_map hids (List.mem_of_mem_filter hx)
          (List.mem_of_mem_filter hy) he.2
    · simp only [List.mem_filter, List.mem_map, Bool.not_eq_true', bne_eq_false_iff_eq]
      constructor
      · rintro ⟨hm, ha⟩
        obtain ⟨r, hr, he, hp⟩ := hmem ref hm ha
        exact ⟨r, ⟨hr, hp⟩, he⟩
      · rintro ⟨r, ⟨hr, hp⟩, rfl⟩
        exact ⟨hmem' r hr hp, hasma r hr⟩
  have hsizes : ((l.filter rangeOnLru).map AshmemRange.ref).map S.pages =
      (l.filter rangeOnLru).map rangeSize := by
    rw [List.map_map]
    refine List.map_congr_left fun r hr => ?_
    have hr := List.mem_of_mem_filter hr
    exact pages_of_mem (hl ▸ hids) (hasma r hr) (hl ▸ hr)
  rw [← ((List.filter_append_perm (fun ref : RangeRef => ref.asma != a) L).map S.pages).sum_eq,
    List.map_append, List.sum_append, (hself.map S.pages).sum_eq, hsizes, lruPages]

/-- The pages of the areas other than `a` on the LRU list. -/
def others (S : Shared) (a : AreaId) : Nat :=
  ((S.lru.list.filter fun ref => ref.asma != a).map S.pages).sum

/-- The accounting at the start of an operation on `a`. -/
theorem Exact.acct (h : S.Exact) (newRange : Option RangeId)
    (hnew : ∀ id ∈ newRange, id ∉ (S.ranges a).map AshmemRange.id) :
    Acct a S.lru.list (S.others a) (S.ranges a) ⟨newRange, S.lru⟩ where
  asma := h.asma a
  ids := h.ids a
  new id hid := by
    refine ⟨hnew id hid, fun hm => hnew id hid ?_⟩
    obtain ⟨r, hr, he, -⟩ := (h.mem _).mp hm
    simp only [AshmemRange.ref, RangeRef.mk.injEq] at he
    exact he.2 ▸ List.mem_map_of_mem hr
  nodup := h.nodup
  mem ref := by
    by_cases ha : ref.asma = a
    · simp only [ha, ne_eq, not_true_eq_false, false_and, false_or]
      rw [h.mem, ha]
    · simp only [ne_eq, ha, not_false_eq_true, true_and]
      refine (or_iff_left ?_).symm
      rintro ⟨r, hr, rfl, -⟩
      exact ha (h.asma a r hr)
  lt := h.count ▸ Nat.mod_lt _ (by decide)
  count := by
    have hsum := sum_pages (S := S) h.nodup (a := a) rfl (h.asma a) (h.ids a)
      (fun ref hm ha => ha ▸ (h.mem ref).mp hm)
      (fun r hr hp => (h.mem _).mpr ⟨r, by rw [show r.ref.asma = a from h.asma a r hr]; exact hr,
        rfl, hp⟩)
    show ((S.lru.count : Nat) : ZMod (2 ^ 64)) = _
    rw [h.count, ZMod.natCast_mod, hsum, Nat.cast_add]
    rfl
  order := ⟨S.lru.list, [], (List.append_nil _).symm, List.Sublist.refl _, Nat.zero_le 1, by simp,
    fun _ => rfl⟩

/-- The accounting at the end of an operation on `a`. -/
theorem Exact.of_acct {l' : List AshmemRange} {st' : Pinning} (h : S.Exact)
    (hacct : Acct a S.lru.list (S.others a) l' st')
    (hr : S'.ranges = Function.update S.ranges a l') (hl : S'.lru = st'.lru) :
    S'.Exact ∧ Appends S.lru.list S'.lru.list := by
  have hself : S'.ranges a = l' := by rw [hr, Function.update_self]
  have hother : ∀ b, b ≠ a → S'.ranges b = S.ranges b := fun b hb => by
    rw [hr, Function.update_of_ne hb]
  refine ⟨⟨fun b => ?_, fun b => ?_, hl ▸ hacct.nodup, fun ref => ?_, ?_⟩, ?_⟩
  · by_cases hb : b = a
    · subst hb
      rw [hself]
      exact hacct.asma
    · rw [hother b hb]
      exact h.asma b
  · by_cases hb : b = a
    · subst hb
      rw [hself]
      exact hacct.ids
    · rw [hother b hb]
      exact h.ids b
  · rw [hl, hacct.mem]
    by_cases hb : ref.asma = a
    · rw [hb, hself]
      simp
    · rw [hother _ hb]
      simp only [ne_eq, hb, not_false_eq_true, true_and, ← h.mem]
      refine or_iff_left ?_
      rintro ⟨r, hrm, rfl, -⟩
      exact hb (hacct.asma r hrm)
  · -- the entries of the other areas are the same, with the same sizes
    have hsum := sum_pages (S := S') hacct.nodup hself hacct.asma hacct.ids
      (fun ref hm ha => by
        rcases (hacct.mem ref).mp hm with ⟨hne, -⟩ | hr
        · exact absurd ha hne
        · exact hr)
      (fun r hrm hp => (hacct.mem _).mpr (.inr ⟨r, hrm, rfl, hp⟩))
    have hperm : (st'.lru.list.filter fun ref => ref.asma != a).Perm
        (S.lru.list.filter fun ref => ref.asma != a) := by
      refine (List.perm_ext_iff_of_nodup (hacct.nodup.filter _) (h.nodup.filter _)).mpr fun ref => ?_
      simp only [List.mem_filter, bne_iff_ne, ne_eq]
      refine and_congr_left fun hne => ?_
      rw [hacct.mem]
      simp only [ne_eq, hne, not_false_eq_true, true_and]
      refine or_iff_left ?_
      rintro ⟨r, hrm, rfl, -⟩
      exact hne (hacct.asma r hrm)
    have hothers : ((st'.lru.list.filter fun ref => ref.asma != a).map S'.pages).sum =
        S.others a := by
      rw [(hperm.map S'.pages).sum_eq, others]
      congr 1
      refine List.map_congr_left fun ref hm => ?_
      have hne : ref.asma ≠ a := by simpa using (List.mem_filter.mp hm).2
      exact pages_congr (hother _ hne) rfl
    rw [hl, ← Nat.mod_eq_of_lt hacct.lt]
    refine (ZMod.natCast_eq_natCast_iff' _ _ _).mp ?_
    rw [hacct.count, hsum, hothers, Nat.cast_add]
  · obtain ⟨kept, added, he, hk, h1, hn, -⟩ := hacct.order
    rw [hl]
    exact ⟨kept, added, he, hk, h1, hn⟩

/-- No list changes. -/
theorem Exact.congr (h : S.Exact) (hr : S'.ranges = S.ranges) (hl : S'.lru = S.lru) :
    S'.Exact ∧ Appends S.lru.list S'.lru.list := by
  refine ⟨⟨hr ▸ h.asma, hr ▸ h.ids, hl ▸ h.nodup, fun ref => ?_, ?_⟩, hl ▸ .refl _⟩
  · rw [hl, hr]
    exact h.mem ref
  · rw [hl, h.count, show S'.pages = S.pages from funext fun ref => pages_congr (hr ▸ rfl) rfl]

end Shared

/-! ## All interleavings -/

/-- The accounting is exact; the ranges allocated by ioctls under way are in no list and all
different; a range is on an area with a backing file; and an ioctl is on an open area. -/
structure LruInv (s : Conc) : Prop where
  exact : s.shared.Exact
  ids : ∀ a, ∀ r ∈ s.shared.ranges a, r.id < s.nextRange
  held : ∀ t, ∀ id ∈ (s.pc t).range, id < s.nextRange ∧
    ∀ a, id ∉ (s.shared.ranges a).map AshmemRange.id
  heldNe : ∀ t u, ∀ id ∈ (s.pc t).range, id ∈ (s.pc u).range → t = u
  file : ∀ a, ∀ asma ∈ s.shared.areas a, asma.file = none → asma.unpinnedList = []
  area : ∀ a, (s.shared.areas a).isSome → a < s.nextArea
  call : ∀ t, ∀ a ∈ (s.pc t).area, (s.shared.areas a).isSome

section Interleavings

variable {v : Nat} {s s' : Conc} {x : Act} {t : Tid} {c : Pc} {a : AreaId} {asma : AshmemArea}
  {l' : List AshmemRange} {st st' : Pinning}

/-- A range of the list after the edits is one of the list, or the preallocated one. -/
theorem Edits.ids {l : List AshmemRange} (h : Edits a l st l' st') :
    ∀ r ∈ l', r.id ∈ l.map AshmemRange.id ∨ r.id ∈ st.newRange := by
  induction h with
  | done l st => exact fun r hr => .inl (List.mem_map_of_mem hr)
  | del b r c _ ih =>
    refine fun z hz => (ih z hz).imp_left fun hm => ?_
    simp only [List.map_append, List.map_cons, List.mem_append, List.mem_cons] at hm ⊢
    exact hm.imp_right .inr
  | @shrink b r c x y st st' l' _ ih =>
    rw [(rangeShrink_lru st r x y).2.1, (rangeShrink_lru st r x y).1] at ih
    simpa using ih
  | @alloc b c new purged x y st st₁ st' l' heq _ ih =>
    unfold rangeAlloc at heq
    cases hn : st.newRange with
    | none =>
      rw [hn] at heq
      cases heq
    | some id =>
      rw [hn] at heq
      cases heq
      intro z hz
      rcases ih z hz with hm | hm
      · simp only [List.map_append, List.map_cons, List.mem_append, List.mem_cons] at hm ⊢
        rcases hm with hm | rfl | hm
        · exact .inl (.inl hm)
        · exact .inr rfl
        · exact .inl (.inr hm)
      · cases hm
  | purge b r c hr _ ih => simpa using ih

/-- A step of `t` that changes no list. -/
theorem LruInv.keep (h : LruInv s) (hr : s'.shared.ranges = s.shared.ranges)
    (hl : s'.shared.lru = s.shared.lru) (hpc : ∀ u, ∀ id ∈ (s'.pc u).range, id ∈ (s.pc u).range)
    (hcall : ∀ u, ∀ b ∈ (s'.pc u).area, b ∈ (s.pc u).area)
    (hn : s'.nextRange = s.nextRange)
    (hareas : ∀ b, (s.shared.areas b).isSome → (s'.shared.areas b).isSome)
    (harea : ∀ b, (s'.shared.areas b).isSome → b < s'.nextArea)
    (hfile : ∀ b, ∀ asma ∈ s'.shared.areas b, asma.file = none → asma.unpinnedList = []) :
    LruInv s' ∧ Appends s.shared.lru.list s'.shared.lru.list := by
  obtain ⟨hexact, happ⟩ := h.exact.congr hr hl
  refine ⟨⟨hexact, ?_, ?_, ?_, hfile, harea, ?_⟩, happ⟩
  · rw [hr, hn]
    exact h.ids
  · rw [hr, hn]
    exact fun u id hid => h.held u id (hpc u id hid)
  · exact fun u w id hu hw => h.heldNe u w id (hpc u id hu) (hpc w id hw)
  · exact fun u b hb => hareas b (h.call u b (hcall u b hb))

/-- A step of `t` to the place `c`, outside of the areas. -/
theorem LruInv.goto (h : LruInv s) (hc : ∀ id ∈ c.range, id ∈ (s.pc t).range)
    (ha : ∀ b ∈ c.area, b ∈ (s.pc t).area) (hp : s'.pc = Function.update s.pc t c)
    (hs : s'.shared = s.shared) (hn : s'.nextRange = s.nextRange) (hna : s'.nextArea = s.nextArea) :
    LruInv s' ∧ Appends s.shared.lru.list s'.shared.lru.list := by
  refine h.keep (hs ▸ rfl) (hs ▸ rfl) (fun u id hid => ?_) (fun u b hb => ?_) hn
    (fun b hb => hs ▸ hb) (fun b hb => hna ▸ h.area b (hs ▸ hb)) (hs ▸ h.file)
  · rw [hp] at hid
    by_cases hu : u = t
    · subst hu
      rw [Function.update_self] at hid
      exact hc id hid
    · rwa [Function.update_of_ne hu] at hid
  · rw [hp] at hb
    by_cases hu : u = t
    · subst hu
      rw [Function.update_self] at hb
      exact ha b hb
    · rwa [Function.update_of_ne hu] at hb

/-- A step that edits the list of `a`, with the preallocated range `new` if it has one. -/
theorem LruInv.edits (h : LruInv s) {new : Option RangeId} (hnew : ∀ id ∈ new, id < s.nextRange ∧
      ∀ a, id ∉ (s.shared.ranges a).map AshmemRange.id)
    (he : Edits a (s.shared.ranges a) ⟨new, s.shared.lru⟩ l' st')
    (hr : s'.shared.ranges = Function.update s.shared.ranges a l') (hl : s'.shared.lru = st'.lru)
    (hpc : ∀ u, ∀ id ∈ (s'.pc u).range, id ∈ (s.pc u).range ∧ id ∉ new)
    (hcall : ∀ u, ∀ b ∈ (s'.pc u).area, (s'.shared.areas b).isSome)
    (hn : s'.nextRange = s.nextRange) (harea : ∀ b, (s'.shared.areas b).isSome → b < s'.nextArea)
    (hfile : ∀ b, ∀ asma ∈ s'.shared.areas b, asma.file = none → asma.unpinnedList = []) :
    LruInv s' ∧ Appends s.shared.lru.list s'.shared.lru.list := by
  have hacct := (h.exact.acct new fun id hid => (hnew id hid).2 a).edits he
  obtain ⟨hexact, happ⟩ := h.exact.of_acct hacct hr hl
  -- the ids of the new lists
  have hids : ∀ b, ∀ id ∈ (s'.shared.ranges b).map AshmemRange.id,
      id ∈ (s.shared.ranges b).map AshmemRange.id ∨ id ∈ new := fun b id hid => by
    rw [hr] at hid
    by_cases hb : b = a
    · subst hb
      rw [Function.update_self] at hid
      obtain ⟨r, hrm, rfl⟩ := List.mem_map.mp hid
      exact he.ids r hrm
    · rw [Function.update_of_ne hb] at hid
      exact .inl hid
  refine ⟨⟨hexact, fun b r hrm => ?_, fun u id hid => ?_, fun u w id hu hw => ?_, hfile, harea,
    hcall⟩, happ⟩
  · rw [hn]
    rcases hids b r.id (List.mem_map_of_mem hrm) with hm | hm
    · obtain ⟨y, hy, hye⟩ := List.mem_map.mp hm
      exact hye ▸ h.ids b y hy
    · exact (hnew r.id hm).1
  · obtain ⟨hid, hne⟩ := hpc u id hid
    rw [hn]
    refine ⟨(h.held u id hid).1, fun b hm => ?_⟩
    rcases hids b id hm with hm | hm
    · exact (h.held u id hid).2 b hm
    · exact hne hm
  · exact h.heldNe u w id (hpc u id hu).1 (hpc w id hw).1

/-- The list of `a` is replaced by a body that holds the preallocated range, or by none. -/
theorem LruInv.setList (h : LruInv s) (ha : asma ∈ s.shared.areas a) (hf : asma.file ≠ none)
    {new : Option RangeId} (hnew : ∀ id ∈ new, id ∈ (s.pc t).range)
    (hc : c.range = none) (hca : c.area = none)
    (he : Edits a asma.unpinnedList ⟨new, s.shared.lru⟩ l' st')
    (hs : s'.shared = s.shared.setList a asma l' st') (hp : s'.pc = Function.update s.pc t c)
    (hn : s'.nextRange = s.nextRange) (hna : s'.nextArea = s.nextArea) :
    LruInv s' ∧ Appends s.shared.lru.list s'.shared.lru.list := by
  have hopen : ∀ b, (s'.shared.areas b).isSome ↔ (s.shared.areas b).isSome := fun b => by
    rw [hs]
    show (Function.update s.shared.areas a _ b).isSome ↔ _
    by_cases hb : b = a
    · subst hb
      simp [Option.mem_def.mp ha]
    · rw [Function.update_of_ne hb]
  have hpc : ∀ u, u ≠ t ∧ s'.pc u = s.pc u ∨ (s'.pc u).range = none ∧ (s'.pc u).area = none :=
    fun u => by
      rw [hp]
      by_cases hu : u = t
      · subst hu
        rw [Function.update_self]
        exact .inr ⟨hc, hca⟩
      · rw [Function.update_of_ne hu]
        exact .inl ⟨hu, rfl⟩
  rw [← Shared.ranges_eq ha] at he
  refine h.edits (fun id hid => h.held t id (hnew id hid)) he (hs ▸ Shared.ranges_setArea)
    (hs ▸ rfl) (fun u id hid => ?_) (fun u b hb => ?_) hn
    (fun b hb => hna ▸ h.area b ((hopen b).mp hb)) fun b asma₂ hb hfile => ?_
  · rcases hpc u with ⟨hu, he⟩ | ⟨he, -⟩
    · rw [he] at hid
      exact ⟨hid, fun hm => hu (h.heldNe u t id hid (hnew id hm))⟩
    · rw [he] at hid
      cases hid
  · rcases hpc u with ⟨-, he⟩ | ⟨-, he⟩
    · rw [he] at hb
      exact (hopen b).mpr (h.call u b hb)
    · rw [he] at hb
      cases hb
  · rw [hs] at hb
    rcases Shared.mem_setList.mp hb with ⟨rfl, rfl⟩ | ⟨-, hb⟩
    · exact absurd hfile hf
    · exact h.file b asma₂ hb hfile

/-- The area `a` changes, without its list. -/
theorem LruInv.setArea {asma' : AshmemArea} (h : LruInv s) (ha : asma ∈ s.shared.areas a)
    (hl : asma'.unpinnedList = asma.unpinnedList) (hf : asma'.file = none → asma.file = none) :
    LruInv { s with shared := s.shared.setArea a asma' } ∧
      Appends s.shared.lru.list s.shared.lru.list := by
  have hopen : ∀ b, ((s.shared.setArea a asma').areas b).isSome ↔ (s.shared.areas b).isSome :=
    fun b => by
      show (Function.update s.shared.areas a _ b).isSome ↔ _
      by_cases hb : b = a
      · subst hb
        simp [Option.mem_def.mp ha]
      · rw [Function.update_of_ne hb]
  refine h.keep ?_ rfl (fun _ _ => id)
    (fun _ _ => id) rfl (fun b => (hopen b).mpr) (fun b hb => h.area b ((hopen b).mp hb)) ?_
  · show (s.shared.setArea a asma').ranges = _
    rw [Shared.ranges_setArea, hl, ← Shared.ranges_eq ha, Function.update_eq_self]
  · intro b asma₂ hb hn
    rcases Shared.mem_setArea.mp hb with ⟨rfl, rfl⟩ | ⟨-, hb⟩
    · rw [hl]
      exact h.file b asma ha (hf hn)
    · exact h.file b asma₂ hb hn

theorem LruInv.open (h : LruInv s) (mode : Int) :
    LruInv { s with
      shared := s.shared.setArea s.nextArea (ashmemOpen mode), nextArea := s.nextArea + 1 } ∧
      Appends s.shared.lru.list s.shared.lru.list := by
  have hnone : s.shared.areas s.nextArea = none := by
    cases hn : s.shared.areas s.nextArea with
    | none => rfl
    | some asma => exact absurd (h.area s.nextArea (by rw [hn]; rfl)) (Nat.lt_irrefl _)
  refine h.keep ?_ rfl (fun _ _ => id) (fun _ _ => id) rfl (fun b hb => ?_) (fun b hb => ?_) ?_
  · show (s.shared.setArea s.nextArea (ashmemOpen mode)).ranges = _
    have hempty : s.shared.ranges s.nextArea = (ashmemOpen mode).unpinnedList := by
      rw [Shared.ranges, hnone]
      rfl
    rw [Shared.ranges_setArea, ← hempty, Function.update_eq_self]
  · show (Function.update s.shared.areas _ _ b).isSome
    by_cases hbn : b = s.nextArea
    · subst hbn
      simp
    · rwa [Function.update_of_ne hbn]
  · show b < s.nextArea + 1
    by_cases hbn : b = s.nextArea
    · exact hbn ▸ Nat.lt_succ_self _
    · have hb : (Function.update s.shared.areas s.nextArea (some (ashmemOpen mode)) b).isSome := hb
      rw [Function.update_of_ne hbn] at hb
      exact Nat.lt_succ_of_lt (h.area b hb)
  · intro b asma₂ hb hn
    rcases Shared.mem_setArea.mp hb with ⟨-, rfl⟩ | ⟨-, hb⟩
    · rfl
    · exact h.file b asma₂ hb hn

theorem LruInv.release (h : LruInv s) (ha : asma ∈ s.shared.areas a)
    (hu : ∀ t, (s.pc t).area ≠ some a) :
    LruInv { s with shared := s.shared.release a asma } ∧
      Appends s.shared.lru.list (s.shared.release a asma).lru.list := by
  have hedits : Edits a (s.shared.ranges a) ⟨none, s.shared.lru⟩ [] _ := release_edits _ _
  have hnew : ∀ id ∈ (none : Option RangeId), id < s.nextRange ∧
      ∀ a, id ∉ (s.shared.ranges a).map AshmemRange.id := by simp
  refine h.edits hnew hedits
    Shared.ranges_release (by rw [Shared.ranges_eq ha]; rfl) (fun u id hid => ⟨hid, by simp⟩)
    (fun u b hb => ?_) rfl (fun b hb => ?_) fun b asma₂ hb =>
      h.file b asma₂ (Shared.mem_release_areas.mp hb).2
  · show (Function.update s.shared.areas a none b).isSome
    have hne : b ≠ a := fun he => hu u (he ▸ hb)
    rw [Function.update_of_ne hne]
    exact h.call u b hb
  · obtain ⟨asma₂, hb⟩ := Option.isSome_iff_exists.mp hb
    exact h.area b (Option.isSome_iff_exists.mpr ⟨asma₂, (Shared.mem_release_areas.mp hb).2⟩)

theorem LruInv.ioctl (h : LruInv s) (hp : s.pc t = .idle) (ha : (s.shared.areas a).isSome)
    {cmd : PinCmd} {pin : AshmemPin} :
    LruInv { s.goto t (.lock a cmd pin s.nextRange) with nextRange := s.nextRange + 1 } ∧
      Appends s.shared.lru.list s.shared.lru.list := by
  have hrange : ∀ u, ∀ id ∈ (Function.update s.pc t (.lock a cmd pin s.nextRange) u).range,
      (u = t ∧ id = s.nextRange) ∨ (u ≠ t ∧ id ∈ (s.pc u).range) := fun u id hid => by
    by_cases hut : u = t
    · subst hut
      rw [Function.update_self] at hid
      exact .inl ⟨rfl, (Option.some.inj hid).symm⟩
    · rw [Function.update_of_ne hut] at hid
      exact .inr ⟨hut, hid⟩
  refine ⟨⟨h.exact, fun b r hr => Nat.lt_succ_of_lt (h.ids b r hr), fun u id hid => ?_,
    fun u w id hu hw => ?_, h.file, h.area, fun u b hb => ?_⟩, .refl _⟩
  · rcases hrange u id hid with ⟨-, rfl⟩ | ⟨-, hid⟩
    · refine ⟨Nat.lt_succ_self _, fun b hm => ?_⟩
      obtain ⟨r, hr, he⟩ := List.mem_map.mp hm
      exact Nat.lt_irrefl _ (he ▸ h.ids b r hr)
    · exact ⟨Nat.lt_succ_of_lt (h.held u id hid).1, (h.held u id hid).2⟩
  · rcases hrange u id hu with ⟨rfl, rfl⟩ | ⟨-, hu'⟩
    · rcases hrange w _ hw with ⟨rfl, -⟩ | ⟨-, hw'⟩
      · rfl
      · exact absurd (h.held w _ hw').1 (Nat.lt_irrefl _)
    · rcases hrange w id hw with ⟨rfl, rfl⟩ | ⟨-, hw'⟩
      · exact absurd (h.held u _ hu').1 (Nat.lt_irrefl _)
      · exact h.heldNe u w id hu' hw'
  · have hb : b ∈ (Function.update s.pc t (.lock a cmd pin s.nextRange) u).area := hb
    by_cases hut : u = t
    · subst hut
      rw [Function.update_self] at hb
      cases hb
      exact ha
    · rw [Function.update_of_ne hut] at hb
      exact h.call u b hb

/-- The entry of the LRU list finds its range. -/
theorem LruInv.deref (h : LruInv s) {ref : RangeRef} (hm : ref ∈ s.shared.lru.list) :
    ∃ asma r, s.shared.deref ref = some (asma, r) ∧ asma ∈ s.shared.areas ref.asma ∧
      r ∈ asma.unpinnedList ∧ r.ref = ref ∧ rangeOnLru r = true := by
  obtain ⟨r, hr, hre, hp⟩ := (h.exact.mem ref).mp hm
  cases ha : s.shared.areas ref.asma with
  | none =>
    rw [Shared.ranges, ha] at hr
    cases hr
  | some asma =>
    rw [Shared.ranges_eq ha] at hr
    have hids := h.exact.ids ref.asma
    rw [Shared.ranges_eq ha] at hids
    refine ⟨asma, r, ?_, rfl, hr, hre, hp⟩
    cases hf : asma.unpinnedList.find? fun x => x.id == ref.id with
    | none =>
      refine absurd (List.find?_eq_none.mp hf r hr) ?_
      simp [← hre, AshmemRange.ref]
    | some x =>
      have hx : x = r := List.inj_on_of_nodup_map hids (List.mem_of_find?_eq_some hf) hr (by
        have := List.find?_some hf
        simpa [← hre, AshmemRange.ref] using this)
      simp [Shared.deref, ha, hf, hx]

/-- The shrinker edits the list of the area: it marks one range. -/
theorem purge_edits {r : AshmemRange} (hids : (asma.unpinnedList.map AshmemRange.id).Nodup)
    (hr : r ∈ asma.unpinnedList) (hp : rangeOnLru r = true) {lru : Lru} :
    Edits a asma.unpinnedList ⟨none, lru⟩
      (asma.unpinnedList.map fun x =>
        if x.id = r.id then { x with purged := ashmemWasPurged } else x) ⟨none, lruDel r lru⟩ := by
  obtain ⟨b, c, hl⟩ := List.append_of_mem hr
  rw [hl] at hids ⊢
  rw [List.map_append, List.map_cons, List.nodup_middle, ← List.map_append] at hids
  have hne : ∀ x ∈ b ++ c, x.id ≠ r.id := fun x hx he =>
    (List.nodup_cons.mp hids).1 (he ▸ List.mem_map_of_mem hx)
  have hkeep : ∀ l : List AshmemRange, (∀ x ∈ l, x ∈ b ++ c) →
      (l.map fun x => if x.id = r.id then { x with purged := ashmemWasPurged } else x) = l :=
    fun l hsub => (List.map_congr_left fun x hx => if_neg (hne x (hsub x hx))).trans (List.map_id l)
  rw [List.map_append, List.map_cons, hkeep b fun x hx => List.mem_append_left _ hx,
    hkeep c fun x hx => List.mem_append_right _ hx, if_pos rfl]
  exact .purge b r c hp (.done _ _)

theorem LruInv.take (h : LruInv s) {ref : RangeRef} {rest : List RangeRef} {range : AshmemRange}
    {f : BackingFile} (hl : s.shared.lru.list = ref :: rest)
    (hd : s.shared.deref ref = some (asma, range)) (hf : f ∈ asma.file) (hc : c.range = none)
    (hca : c.area = none) (hs : s'.shared = s.shared.purge ref.asma asma range)
    (hp : s'.pc = Function.update s.pc t c) (hn : s'.nextRange = s.nextRange)
    (hna : s'.nextArea = s.nextArea) :
    LruInv s' ∧ Appends s.shared.lru.list s'.shared.lru.list := by
  obtain ⟨asma₁, r₁, hd₁, ha, hr, -, hon⟩ := h.deref (by simp [hl] : ref ∈ s.shared.lru.list)
  rw [hd] at hd₁
  obtain ⟨rfl, rfl⟩ : asma = asma₁ ∧ range = r₁ := by simpa using hd₁
  have hids := h.exact.ids ref.asma
  rw [Shared.ranges_eq ha] at hids
  refine h.setList (t := t) (c := c) ha (by simp [Option.mem_def.mp hf]) (fun id hid => ?_) hc hca
    (purge_edits hids hr hon) hs hp hn hna
  cases hid

theorem pin_edits {S S' : Shared} {lo hi ret : Nat} {range : RangeId}
    (h : S.pin a asma lo hi range = some (ret, S')) :
    ∃ l' st', Edits a asma.unpinnedList ⟨some range, S.lru⟩ l' st' ∧
      S' = S.setList a asma l' st' := by
  obtain ⟨⟨ret₁, l', st'⟩, hpin, he⟩ := Option.bind_eq_some_iff.mp h
  simp only [Option.some.injEq, Prod.mk.injEq] at he
  exact ⟨l', st', ashmemPinLoop_edits [] hpin, he.2.symm⟩

theorem unpin_edits {S S' : Shared} {lo hi ret : Nat} {range : RangeId}
    (h : S.unpin a asma lo hi range = some (ret, S')) :
    ∃ l' st', Edits a asma.unpinnedList ⟨some range, S.lru⟩ l' st' ∧
      S' = S.setList a asma l' st' := by
  obtain ⟨⟨ret₁, l', st'⟩, hunpin, he⟩ := Option.bind_eq_some_iff.mp h
  simp only [Option.some.injEq, Prod.mk.injEq] at he
  obtain ⟨⟨l₁, st₁⟩, hfrom, he₁⟩ := Option.bind_eq_some_iff.mp hunpin
  simp only [Option.some.injEq, Prod.mk.injEq] at he₁
  obtain ⟨-, rfl, rfl⟩ := he₁
  exact ⟨l₁, st₁, ashmemUnpinFrom_edits hfrom, he.2.symm⟩

theorem LruInv.run (h : LruInv s) {cmd : PinCmd} {pin : AshmemPin} {range : RangeId}
    {ret : Except Errno Nat} {S : Shared} (hp : s.pc t = .body a cmd pin range)
    (ha : asma ∈ s.shared.areas a)
    (heq : ashmemPinUnpin s.shared a asma cmd pin range = some (ret, S))
    (hs : s'.shared = S) (hpc : s'.pc = Function.update s.pc t .idle)
    (hn : s'.nextRange = s.nextRange) (hna : s'.nextArea = s.nextArea) :
    LruInv s' ∧ Appends s.shared.lru.list s'.shared.lru.list := by
  have hrange : ∀ id ∈ some range, id ∈ (s.pc t).range := by
    rw [hp]
    exact fun _ => id
  have hsame : S = s.shared → LruInv s' ∧ Appends s.shared.lru.list s'.shared.lru.list :=
    fun he => h.goto (t := t) (c := .idle) (by simp [Pc.range]) (by simp [Pc.area]) hpc
      (hs.trans he) hn hna
  unfold ashmemPinUnpin at heq
  split at heq
  · cases heq
    exact hsame rfl
  rename_i hfile
  have hfile : asma.file ≠ none := fun hn => hfile (by simp [hn])
  split at heq
  · cases heq
    exact hsame rfl
  split at heq
  · obtain ⟨⟨ret₁, S₁⟩, hpin, he⟩ := Option.map_eq_some_iff.mp heq
    simp only [Prod.mk.injEq] at he
    obtain ⟨-, rfl⟩ := he
    obtain ⟨l', st', hed, rfl⟩ := pin_edits hpin
    exact h.setList ha hfile hrange rfl rfl hed hs hpc hn hna
  · obtain ⟨⟨ret₁, S₁⟩, hunpin, he⟩ := Option.map_eq_some_iff.mp heq
    simp only [Prod.mk.injEq] at he
    obtain ⟨-, rfl⟩ := he
    obtain ⟨l', st', hed, rfl⟩ := unpin_edits hunpin
    exact h.setList ha hfile hrange rfl rfl hed hs hpc hn hna
  · cases heq
    exact hsame rfl

theorem LruInv.step (h : LruInv s) (hst : Step v s x s') :
    LruInv s' ∧ Appends s.shared.lru.list s'.shared.lru.list := by
  -- a step that only moves a thread, out of an ioctl or not into one
  have hgoto : ∀ {t : Tid} {c : Pc} {s' : Conc}, c.range = none → c.area = none →
      s'.pc = Function.update s.pc t c → s'.shared = s.shared → s'.nextRange = s.nextRange →
      s'.nextArea = s.nextArea → LruInv s' ∧ Appends s.shared.lru.list s'.shared.lru.list :=
    fun {t c} _ hr ha hp hs hn hna => h.goto (t := t) (c := c) (by simp [hr]) (by simp [ha]) hp hs hn hna
  cases hst with
  | «open» mode hm => exact h.open mode
  | setSize a size hm ha hs =>
    simp only [ashmemSetSize] at hs
    split at hs
    · cases hs
      exact h.setArea ha rfl id
    · cases hs
  | mmap a env vma hm ha =>
    obtain ⟨h1, h2⟩ := ashmemMmap_area v env _ vma
    exact h.setArea ha h1 h2
  | release a hm ha hu => exact h.release ha hu
  | ioctl t a cmd pin hp ha => exact h.ioctl hp ha
  | lock t hp hm =>
    exact h.goto (t := t) (by rw [hp]; exact fun _ => id) (by rw [hp]; exact fun _ => id) rfl rfl rfl rfl
  | wake t hp hi =>
    exact h.goto (t := t) (by rw [hp]; exact fun _ => id) (by rw [hp]; exact fun _ => id) rfl rfl rfl rfl
  | run t hp ha heq =>
    exact h.run hp ha heq rfl (by simp [Conc.requested_ctl.1]) Conc.requested_ctl.2.2.2
      Conc.requested_ctl.2.2.1
  | shrink t nr hp hm => exact hgoto (t := t) rfl rfl rfl rfl rfl rfl
  | takeNone t hp hl => exact hgoto (t := t) rfl rfl rfl rfl rfl rfl
  | take t hp hl hd hf => exact h.take (t := t) hl hd hf rfl rfl rfl rfl rfl rfl
  | punchPage t p hp hh =>
    exact h.keep rfl rfl (fun _ _ => id) (fun _ _ => id) rfl (fun _ => id) h.area h.file
  | punchEnd t hp => exact hgoto (t := t) rfl rfl rfl rfl rfl rfl
  | decInflight t hp => exact hgoto (t := t) rfl rfl rfl rfl rfl rfl
  | relock t hp hm hn => exact hgoto (t := t) rfl rfl rfl rfl rfl rfl
  | relockDone t hp hm hn => exact hgoto (t := t) rfl rfl rfl rfl rfl rfl
  | giveUp t hp => exact hgoto (t := t) rfl rfl rfl rfl rfl rfl

/-- No ioctl gets stuck: the area is open, and `range_alloc` finds its preallocated range. -/
theorem LruInv.run_possible (h : LruInv s) {cmd : PinCmd} {pin : AshmemPin} {range : RangeId}
    (hp : s.pc t = .body a cmd pin range) : ∃ s', Step v s (.run t) s' := by
  have ha := h.call t a (by rw [hp]; rfl)
  obtain ⟨asma, ha⟩ := Option.isSome_iff_exists.mp ha
  have hrun : (ashmemPinUnpin s.shared a asma cmd pin range).isSome := by
    unfold ashmemPinUnpin
    split
    · rfl
    split
    · rfl
    rename_i lo hi _
    cases cmd with
    | pin =>
      have hx : (ashmemPinLoop a lo hi asma.unpinnedList ⟨some range, s.shared.lru⟩).isSome :=
        ashmemPinLoop_isSome rfl
      obtain ⟨x, hx⟩ := Option.isSome_iff_exists.mp hx
      simp [Shared.pin, ashmemPin, hx]
    | unpin =>
      have hx : (ashmemUnpinFrom a asma.unpinnedList lo hi ashmemNotPurged
          ⟨some range, s.shared.lru⟩).isSome := ashmemUnpinFrom_isSome rfl
      obtain ⟨x, hx⟩ := Option.isSome_iff_exists.mp hx
      simp [Shared.unpin, ashmemUnpin, hx]
    | getPinStatus => rfl
  obtain ⟨⟨ret, S⟩, heq⟩ := Option.isSome_iff_exists.mp hrun
  exact ⟨_, .run t hp ha heq⟩

/-- The shrinker does not get stuck: the first entry points to a range of an area with a file. -/
theorem LruInv.take_possible (h : LruInv s) {nr : Nat} (hp : s.pc t = .scan nr) :
    ∃ s', Step v s (.take t) s' := by
  cases hl : s.shared.lru.list with
  | nil => exact ⟨_, .takeNone t hp hl⟩
  | cons ref rest =>
    obtain ⟨asma, r, hd, ha, hr, -⟩ := h.deref (by simp [hl] : ref ∈ s.shared.lru.list)
    cases hf : asma.file with
    | none =>
      rw [h.file _ asma ha hf] at hr
      cases hr
    | some f => exact ⟨_, .take t hp hl hd hf⟩

end Interleavings

/-! ## The calls of `ashmem_shrink_scan` -/

/-- `SHRINK_STOP`, and `-1` as an `unsigned long`. -/
def shrinkStop : Nat := 2 ^ 64 - 1

/-- The module, with the variable `freed` of the call of `ashmem_shrink_scan` that each thread is
in, and what the last call of each thread returned.

Ghost: `entered`, the last call got the mutex at its start; `dropped`, by how much the steps of the
last call have decreased `lru_count`, in `unsigned long`; `born`, the time (`clock`) at which an
entry was added to the LRU list. -/
structure Scans where
  conc : Conc
  freed : Tid → Nat
  ret : Tid → Option Nat
  entered : Tid → Bool
  dropped : Tid → Nat
  clock : Nat
  born : RangeRef → Nat

namespace Scans

/-- The time of each entry, after a step to `c`. -/
def stamp (s : Scans) (c : Conc) (ref : RangeRef) : Nat :=
  if ref ∈ c.shared.lru.list ∧ ref ∉ s.conc.shared.lru.list then s.clock else s.born ref

/-- The call of `t` returns `freed`. -/
def returns (s : Scans) (t : Tid) : Scans :=
  { s with ret := Function.update s.ret t (some (s.freed t)) }

/-- The variables of the calls after the step `x`, to `c`. -/
def after (s : Scans) (x : Act) (c : Conc) : Scans :=
  let s' := { s with conc := c, clock := s.clock + 1, born := s.stamp c }
  match x with
  | .shrink t _ =>
    { s' with
      freed := Function.update s.freed t 0
      ret := Function.update s.ret t none
      entered := Function.update s.entered t true
      dropped := Function.update s.dropped t 0 }
  | .take t =>
    match s.conc.shared.lru.list with
    | [] => s'.returns t
    | ref :: _ =>
      { s' with
        freed := Function.update s.freed t ((s.freed t + s.conc.shared.pages ref) % 2 ^ 64)
        dropped := Function.update s.dropped t ((s.dropped t +
          (s.conc.shared.lru.count + (2 ^ 64 - c.shared.lru.count))) % 2 ^ 64) }
  | .relock t => if c.pc t = .idle then s'.returns t else s'
  | .giveUp t => s'.returns t
  | _ => s'

end Scans

/-- A step of the module, or a call of `ashmem_shrink_scan` by `t` that returns at its start. -/
inductive ScanAct where
  | step (x : Act)
  | bail (t : Tid) (gfpFs : Bool)

/-- All interleavings, under kernel version `v`. A call returns at its start if `gfp_mask` has no
`__GFP_FS`, or if the mutex is taken. -/
def scanSys (v : Nat) : Sys Scans ScanAct where
  init s := s.conc = .start ∧ ∀ t, s.ret t = none
  step s
    | .step x, s' => ∃ c, Step v s.conc x c ∧ s' = s.after x c
    | .bail t gfpFs, s' => s.conc.pc t = .idle ∧ (gfpFs = false ∨ s.conc.mutex ≠ none) ∧
      s' = { s with
        ret := Function.update s.ret t (some shrinkStop)
        entered := Function.update s.entered t false
        dropped := Function.update s.dropped t 0 }

/-- The thread is in `ashmem_shrink_scan`, after its start. -/
def Pc.scans : Pc → Bool
  | .scan _ | .punch .. | .punched _ | .relock _ => true
  | _ => false

/-- A call under way has counted in `freed` what it took off `lru_count`, and a call that is over
returned that, or `SHRINK_STOP` if it did not get the mutex. -/
structure Calls (s : Scans) : Prop where
  scan : ∀ t, (s.conc.pc t).scans = true →
    s.entered t = true ∧ s.ret t = none ∧ s.freed t = s.dropped t
  ret : ∀ t r, s.ret t = some r →
    if s.entered t then r = s.dropped t else r = shrinkStop ∧ s.dropped t = 0

/-- The accounting is exact, the entries of the LRU list are in the order in which they were added,
and the calls are as `Calls` says. -/
structure ScansInv (s : Scans) : Prop where
  lru : LruInv s.conc
  sorted : s.conc.shared.lru.list.Pairwise fun x y => s.born x < s.born y
  past : ∀ ref ∈ s.conc.shared.lru.list, s.born ref < s.clock
  calls : Calls s

section Scans

variable {v : Nat} {s s' : Scans} {c : Conc} {x : Act} {t : Tid}

@[simp] theorem Scans.returns_conc : (s.returns t).conc = s.conc := rfl
@[simp] theorem Scans.returns_clock : (s.returns t).clock = s.clock := rfl
@[simp] theorem Scans.returns_born : (s.returns t).born = s.born := rfl

theorem Scans.after_conc : (s.after x c).conc = c ∧ (s.after x c).clock = s.clock + 1 ∧
    (s.after x c).born = s.stamp c := by
  unfold after
  cases x with
  | take t => simp only; split <;> exact ⟨rfl, rfl, rfl⟩
  | relock t => simp only; split <;> exact ⟨rfl, rfl, rfl⟩
  | _ => exact ⟨rfl, rfl, rfl⟩

/-- The order after entries were taken out and one was added at the end. -/
theorem sorted_stamp (happ : Appends s.conc.shared.lru.list c.shared.lru.list)
    (hs : s.conc.shared.lru.list.Pairwise fun x y => s.born x < s.born y)
    (hp : ∀ ref ∈ s.conc.shared.lru.list, s.born ref < s.clock) :
    (c.shared.lru.list.Pairwise fun x y => s.stamp c x < s.stamp c y) ∧
      ∀ ref ∈ c.shared.lru.list, s.stamp c ref < s.clock + 1 := by
  obtain ⟨kept, added, he, hk, h1, hn⟩ := happ
  have hold : ∀ ref ∈ kept, s.stamp c ref = s.born ref := fun ref hm => by
    unfold Scans.stamp
    rw [if_neg fun h => h.2 (hk.subset hm)]
  have hnew : ∀ ref ∈ added, s.stamp c ref = s.clock := fun ref hm => by
    unfold Scans.stamp
    rw [if_pos ⟨he ▸ List.mem_append_right _ hm, hn ref hm⟩]
  have hlt : ∀ ref ∈ kept, s.stamp c ref < s.clock := fun ref hm => by
    rw [hold ref hm]
    exact hp ref (hk.subset hm)
  constructor
  · rw [he]
    refine List.pairwise_append.mpr ⟨?_, ?_, fun x hx y hy => ?_⟩
    · refine (hs.sublist hk).imp_of_mem fun {x y} hx hy h => ?_
      rw [hold x hx, hold y hy]
      exact h
    · match added, h1 with
      | [], _ => exact .nil
      | [x], _ => exact List.pairwise_singleton _ _
    · rw [hnew y hy]
      exact hlt x hx
  · intro ref hm
    rw [he] at hm
    rcases List.mem_append.mp hm with hm | hm
    · exact Nat.lt_succ_of_lt (hlt ref hm)
    · rw [hnew ref hm]
      exact Nat.lt_succ_self _

/-- No call starts or ends, and none counts. -/
theorem Calls.quiet (h : Calls s) (hf : s'.freed = s.freed) (hr : s'.ret = s.ret)
    (he : s'.entered = s.entered) (hd : s'.dropped = s.dropped)
    (hpc : ∀ u, (s'.conc.pc u).scans = true → (s.conc.pc u).scans = true) : Calls s' := by
  refine ⟨fun u hu => ?_, ?_⟩
  · rw [hf, hr, he, hd]
    exact h.scan u (hpc u hu)
  · rw [hr, he, hd]
    exact h.ret

/-- The thread `t` moves, not into the loop. -/
theorem scans_update {pc : Tid → Pc} {k : Pc} (hk : k.scans = true → (pc t).scans = true) (u : Tid)
    (hu : (Function.update pc t k u).scans = true) : (pc u).scans = true := by
  by_cases hut : u = t
  · subst hut
    rw [Function.update_self] at hu
    exact hk hu
  · rwa [Function.update_of_ne hut] at hu

/-- The call of `t` is over. -/
theorem Calls.returns (h : Calls s) (ht : (s.conc.pc t).scans = true) {k : Pc}
    (hk : k.scans = false) (hpc : c.pc = Function.update s.conc.pc t k) {n : Nat}
    {born : RangeRef → Nat} :
    Calls (Scans.returns { s with conc := c, clock := n, born := born } t) := by
  obtain ⟨he, -, hfd⟩ := h.scan t ht
  refine ⟨fun u hu => ?_, fun u r hr => ?_⟩
  · have hu : (c.pc u).scans = true := hu
    rw [hpc] at hu
    have hut : u ≠ t := fun hut => by
      subst hut
      rw [Function.update_self, hk] at hu
      cases hu
    rw [Function.update_of_ne hut] at hu
    show _ ∧ Function.update s.ret t _ u = none ∧ _
    rw [Function.update_of_ne hut]
    exact h.scan u hu
  · have hr : Function.update s.ret t (some (s.freed t)) u = some r := hr
    show if s.entered u then r = s.dropped u else _
    by_cases hut : u = t
    · subst hut
      rw [Function.update_self] at hr
      rw [if_pos he, ← Option.some.inj hr, hfd]
    · rw [Function.update_of_ne hut] at hr
      exact h.ret u r hr

/-- A call starts. -/
theorem Calls.shrink (h : Calls s) {nr : Nat}
    (hpc : c.pc = Function.update s.conc.pc t (.scan nr)) : Calls (s.after (.shrink t nr) c) := by
  refine ⟨fun u hu => ?_, fun u r hr => ?_⟩
  · have hu : (c.pc u).scans = true := hu
    show Function.update s.entered t _ u = _ ∧ Function.update s.ret t _ u = _ ∧
      Function.update s.freed t _ u = Function.update s.dropped t _ u
    by_cases hut : u = t
    · subst hut
      simp
    · rw [hpc, Function.update_of_ne hut] at hu
      simp only [Function.update_of_ne hut]
      exact h.scan u hu
  · have hr : Function.update s.ret t none u = some r := hr
    show if Function.update s.entered t _ u then r = Function.update s.dropped t _ u else
      r = shrinkStop ∧ Function.update s.dropped t _ u = 0
    by_cases hut : u = t
    · subst hut
      rw [Function.update_self] at hr
      cases hr
    · simp only [Function.update_of_ne hut] at hr ⊢
      exact h.ret u r hr

/-- A call takes the first range of the LRU list: it counts what `lru_count` loses. -/
theorem Calls.take (h : Calls s) (hlru : LruInv s.conc) {nr : Nat} {ref : RangeRef}
    {rest : List RangeRef} {asma : AshmemArea} {range : AshmemRange} {k : Pc}
    (hp : s.conc.pc t = .scan nr) (hl : s.conc.shared.lru.list = ref :: rest)
    (hd : s.conc.shared.deref ref = some (asma, range))
    (hs : c.shared = s.conc.shared.purge ref.asma asma range)
    (hpc : c.pc = Function.update s.conc.pc t k) :
    Calls (s.after (.take t) c) := by
  obtain ⟨he, hret, hfd⟩ := h.scan t (by rw [hp]; rfl)
  have hpages : s.conc.shared.pages ref = rangeSize range := by
    rw [Shared.pages, hd]
    rfl
  -- what `lru_del` does to the counter
  have hcount : (s.conc.shared.lru.count + (2 ^ 64 - c.shared.lru.count)) % 2 ^ 64 =
      rangeSize range := by
    rw [hs]
    show (_ + (2 ^ 64 - (s.conc.shared.lru.count + (2 ^ 64 - rangeSize range)) % 2 ^ 64)) %
      2 ^ 64 = _
    have h1 : s.conc.shared.lru.count < 2 ^ 64 :=
      hlru.exact.count ▸ Nat.mod_lt _ (by decide)
    have h2 := rangeSize_lt range
    generalize s.conc.shared.lru.count = n at *
    generalize rangeSize range = m at *
    omega
  have hafter : s.after (.take t) c =
      { s with
        conc := c
        clock := s.clock + 1
        born := s.stamp c
        freed := Function.update s.freed t ((s.freed t + rangeSize range) % 2 ^ 64)
        dropped := Function.update s.dropped t ((s.dropped t + rangeSize range) % 2 ^ 64) } := by
    have hdrop : (s.dropped t + rangeSize range) % 2 ^ 64 = (s.dropped t +
        (s.conc.shared.lru.count + (2 ^ 64 - c.shared.lru.count))) % 2 ^ 64 := by
      rw [← hcount, Nat.add_mod_mod]
    simp only [Scans.after, hl, hpages, hdrop]
  rw [hafter]
  refine ⟨fun u hu => ?_, fun u r hr => ?_⟩
  · have hu : (c.pc u).scans = true := hu
    show s.entered u = _ ∧ s.ret u = _ ∧ Function.update s.freed t _ u = Function.update s.dropped t _ u
    by_cases hut : u = t
    · subst hut
      rw [Function.update_self, Function.update_self, hfd]
      exact ⟨he, hret, rfl⟩
    · rw [hpc, Function.update_of_ne hut] at hu
      simp only [Function.update_of_ne hut]
      exact h.scan u hu
  · have hr : s.ret u = some r := hr
    show if s.entered u then r = Function.update s.dropped t _ u else
      r = shrinkStop ∧ Function.update s.dropped t _ u = 0
    have hut : u ≠ t := fun hut => by
      rw [hut, hret] at hr
      cases hr
    simp only [Function.update_of_ne hut]
    exact h.ret u r hr

theorem Calls.step (h : Calls s) (hlru : LruInv s.conc) (hst : Step v s.conc x c) :
    Calls (s.after x c) := by
  cases hst with
  | «open» mode hm => exact h.quiet rfl rfl rfl rfl fun _ => id
  | setSize a size hm ha hs => exact h.quiet rfl rfl rfl rfl fun _ => id
  | mmap a env vma hm ha => exact h.quiet rfl rfl rfl rfl fun _ => id
  | release a hm ha hu => exact h.quiet rfl rfl rfl rfl fun _ => id
  | ioctl t a cmd pin hp ha => exact h.quiet rfl rfl rfl rfl (scans_update (t := t) (by simp [Pc.scans]))
  | lock t hp hm => exact h.quiet rfl rfl rfl rfl (scans_update (t := t) (by simp [Pc.scans]))
  | wake t hp hi => exact h.quiet rfl rfl rfl rfl (scans_update (t := t) (by simp [Pc.scans]))
  | run t hp ha heq =>
    refine h.quiet rfl rfl rfl rfl fun u hu => ?_
    simp only [Scans.after, Conc.goto_pc, Conc.requested_ctl.1] at hu
    exact scans_update (t := t) (by simp [Pc.scans]) u hu
  | shrink t nr hp hm => exact h.shrink rfl
  | takeNone t hp hl =>
    have hc : (s.conc.pc t).scans = true := by
      rw [hp]
      rfl
    simp only [Scans.after, hl]
    exact h.returns hc rfl rfl
  | take t hp hl hd hf => exact h.take hlru hp hl hd rfl rfl
  | punchPage t p hp hh => exact h.quiet rfl rfl rfl rfl fun _ => id
  | punchEnd t hp =>
    exact h.quiet rfl rfl rfl rfl (scans_update (t := t) fun _ => by rw [hp]; rfl)
  | decInflight t hp =>
    exact h.quiet rfl rfl rfl rfl (scans_update (t := t) fun _ => by rw [hp]; rfl)
  | relock t hp hm hn =>
    simp only [Scans.after, Conc.goto_pc, Function.update_self]
    exact h.quiet rfl rfl rfl rfl (scans_update (t := t) fun _ => by rw [hp]; rfl)
  | relockDone t hp hm hn =>
    have hc : (s.conc.pc t).scans = true := by
      rw [hp]
      rfl
    simp only [Scans.after, Conc.goto_pc, Function.update_self, if_true]
    exact h.returns hc rfl rfl
  | giveUp t hp =>
    have hc : (s.conc.pc t).scans = true := by
      rw [hp]
      rfl
    exact h.returns hc rfl rfl

theorem ScansInv.step (h : ScansInv s) {x : ScanAct} (hst : (scanSys v).step s x s') :
    ScansInv s' := by
  cases x with
  | step x =>
    obtain ⟨c, hst, rfl⟩ := hst
    obtain ⟨hc, hclock, hborn⟩ := Scans.after_conc (s := s) (c := c) (x := x)
    obtain ⟨hlru, happ⟩ := h.lru.step hst
    obtain ⟨hs, hp⟩ := sorted_stamp happ h.sorted h.past
    refine ⟨hc.symm ▸ hlru, ?_, ?_, h.calls.step h.lru hst⟩
    · rw [hc, hborn]
      exact hs
    · rw [hc, hborn, hclock]
      exact hp
  | bail t gfpFs =>
    obtain ⟨hp, -, rfl⟩ := hst
    refine ⟨h.lru, h.sorted, h.past, fun u hu => ?_, fun u r hr => ?_⟩
    · have hut : u ≠ t := fun hut => by
        subst hut
        have hu : (s.conc.pc u).scans = true := hu
        rw [hp] at hu
        cases hu
      simp only [Function.update_of_ne hut]
      exact h.calls.scan u hu
    · by_cases hut : u = t
      · subst hut
        simp only [Function.update_self, Option.some.injEq] at hr ⊢
        exact ⟨hr.symm, trivial⟩
      · simp only [Function.update_of_ne hut] at hr ⊢
        exact h.calls.ret u r hr

theorem scansInv_of_reach (h : (scanSys v).Reach s) : ScansInv s := by
  refine h.inv (fun s hs => ?_) fun s x s' hi hst => hi.step hst
  obtain ⟨hc, hr⟩ := hs
  refine ⟨?_, by simp [hc, Conc.start], by simp [hc, Conc.start],
    by simp [hc, Conc.start, Pc.scans], by simp [hr]⟩
  rw [hc]
  refine ⟨⟨by simp [Conc.start, Shared.ranges], by simp [Conc.start, Shared.ranges],
    by simp [Conc.start], by simp [Conc.start, Shared.ranges], rfl⟩, ?_, ?_, ?_, ?_, ?_, ?_⟩ <;>
    simp [Conc.start, Shared.ranges, Pc.range, Pc.area]

/-- The next step of `t` in the loop of `ashmem_shrink_scan`: if the LRU list is empty it stays so,
else the entry that was added first is taken off, and the others stay in their order. -/
def TakesFirst (s s' : Scans) : Prop :=
  (s.conc.shared.lru.list = [] ∧ s'.conc.shared.lru = s.conc.shared.lru) ∨
  ∃ ref rest, s.conc.shared.lru.list = ref :: rest ∧ s'.conc.shared.lru.list = rest ∧
    ∀ x ∈ rest, s.born ref < s.born x

/-- **The LRU accounting is exact.** In every state of every run the LRU list has each range that
is not purged once and nothing else, and `lru_count` is the sum of their sizes; a call of
`ashmem_shrink_scan` that got the mutex returned by how much it decreased `lru_count`, and one that
did not returned `SHRINK_STOP` and decreased nothing; and the loop takes ranges from the front, the
one added first. -/
theorem scanSys_exact (h : (scanSys v).Reach s) :
    s.conc.shared.Exact ∧
    (∀ t r, s.ret t = some r →
      if s.entered t then r = s.dropped t else r = shrinkStop ∧ s.dropped t = 0) ∧
    ∀ t s', (scanSys v).step s (.step (.take t)) s' → TakesFirst s s' := by
  have hinv := scansInv_of_reach h
  refine ⟨hinv.lru.exact, hinv.calls.ret, fun t s' hst => ?_⟩
  obtain ⟨c, hst, rfl⟩ := hst
  have hc := (Scans.after_conc (s := s) (c := c) (x := .take t)).1
  rw [TakesFirst, hc]
  cases hst with
  | takeNone _ hp hl => exact .inl ⟨hl, rfl⟩
  | @take _ nr ref rest asma range f hp hl hd hf =>
    refine .inr ⟨ref, rest, hl, ?_, ?_⟩
    · obtain ⟨asma₁, r₁, hd₁, -, -, hre, -⟩ :=
        hinv.lru.deref (by simp [hl] : ref ∈ s.conc.shared.lru.list)
      rw [hd] at hd₁
      obtain ⟨rfl, rfl⟩ : asma = asma₁ ∧ range = r₁ := by simpa using hd₁
      show s.conc.shared.lru.list.erase range.ref = rest
      rw [hl, hre, List.erase_cons_head]
    · have hs := hinv.sorted
      rw [hl, List.pairwise_cons] at hs
      exact hs.1

theorem scanSys_next (h : (scanSys v).Reach s) (hst : Step v s.conc x c) :
    (scanSys v).Reach (s.after x c) :=
  Sys.Reach.next (a := ScanAct.step x) h ⟨c, hst, rfl⟩

/-- A run of the module is a run with the calls. -/
theorem scanSys_of_reach (h : (concSys v).Reach c) : ∃ s, (scanSys v).Reach s ∧ s.conc = c := by
  induction h with
  | init hi => exact ⟨⟨_, fun _ => 0, fun _ => none, fun _ => false, fun _ => 0, 0, fun _ => 0⟩,
      .init ⟨hi, fun _ => rfl⟩, rfl⟩
  | @step c c' x _ _ hst ih =>
    obtain ⟨s, hs, rfl⟩ := ih
    exact ⟨s.after x c', scanSys_next hs hst, Scans.after_conc.1⟩

end Scans

/-- The shrinker purges the page of `onePage`, and returns 1. -/
theorem scanSys_exact_onePage : ∃ s, (scanSys (kernelVersion 6 6 0)).Reach s ∧
    s.ret 1 = some 1 ∧ s.dropped 1 = 1 ∧ s.conc.shared.Exact := by
  obtain ⟨c, hc, hone⟩ := reach_onePage_unpinned (C := fun _ _ => True) (fun _ _ _ => trivial)
    fun _ _ _ => trivial
  have hl := hone.lru
  obtain ⟨s, hs, rfl⟩ := scanSys_of_reach hc
  have hpages : s.conc.shared.pages ⟨0, 0⟩ = 1 := by
    rw [Shared.pages, hone.deref]
    rfl
  have hlist : s.conc.shared.lru.list = [⟨0, 0⟩] := by rw [hl]
  have h1 := scanSys_next hs (.shrink 1 1 (hone.idle 1) hone.mutex)
  have h2 := scanSys_next h1 (.take 1 (show _ = Pc.scan 1 from by simp [Scans.after]) hlist hone.deref rfl)
  have h3 := scanSys_next h2 (.punchEnd 1 (show _ = Pc.punch 1 0 0 4096 from by
    simp [Scans.after_conc.1, pageSize]))
  have h4 := scanSys_next h3 (.decInflight 1 (show _ = Pc.punched 1 from by
    simp [Scans.after_conc.1]))
  have h5 := scanSys_next h4 (.relockDone 1 (show _ = Pc.relock 1 from by
    simp [Scans.after_conc.1]) (by simp [Scans.after_conc.1]) rfl)
  refine ⟨_, h5, ?_, ?_, (scanSys_exact h5).1⟩
  · simp [Scans.after, Scans.returns, hl, hpages]
  · simp [Scans.after, Scans.returns, hl, hpages, Shared.purge, Shared.setList, lruDel, rangeSize]

/-- A call that finds the mutex taken returns `-1`, and has taken nothing off `lru_count`. -/
theorem scan_returns_stop : ¬ ∀ v s, (scanSys v).Reach s → ∀ t r, s.ret t = some r →
    r = s.dropped t := by
  intro hall
  have h0 : (scanSys (kernelVersion 6 6 0)).Reach
      ⟨.start, fun _ => 0, fun _ => none, fun _ => false, fun _ => 0, 0, fun _ => 0⟩ :=
    .init ⟨rfl, fun _ => rfl⟩
  have h1 := scanSys_next h0 (.shrink 1 1 rfl rfl)
  have h2 := Sys.Reach.next (a := ScanAct.bail 0 true) h1 ⟨rfl, .inr (by simp [Scans.after]), rfl⟩
  exact absurd (hall _ _ h2 0 shrinkStop rfl) (by decide)

end Redroid.Ashmem
