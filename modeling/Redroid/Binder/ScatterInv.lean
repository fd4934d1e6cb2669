import Redroid.Binder.AllocInv
import Redroid.Binder.Scatter

/-!
# Fixups are confined

* `Confined`: the accepted objects follow each other in the data; the copied buffers follow each
  other after the offsets; every pointer and every descriptor that is fixed up in a buffer lies in the
  copy of that buffer, and no two of them overlap.
* `Climb`: the way of `binder_validate_fixup` from a buffer object to its parents, with the least
  offset that it allows in each. `Chained`: what is fixed up in them lies below that offset.
* `objects_confined`: `Confined` holds at any point of the loop.
-/

namespace Redroid.Binder.Scatter

open Redroid.Bytes

/-! ## Bounds -/

/-- The parts of the buffer follow each other. -/
structure Bounds (F : Frame) : Prop where
  data : F.dataSize ≤ F.offStart
  offsets : F.offStart ≤ F.offEnd
  extra : F.offEnd ≤ F.sgStart
  sg : F.sgStart ≤ F.sgEnd
  max : F.sgEnd < 2 ^ 64
  start8 : F.sgStart % 8 = 0
  end8 : F.sgEnd % 8 = 0
  user : F.userData < 2 ^ 64

section Sizes

variable {x y : Nat}

theorem mulSize_eq (h : x * y < 2 ^ 64) : mulSize x y = x * y := Nat.mod_eq_of_lt h

theorem alignPtr_le (h : x + 7 < 2 ^ 64) : x ≤ alignPtr x ∧ alignPtr x < x + 8 ∧ alignPtr x % 8 = 0 := by
  rw [alignPtr, sizeofPtr, Nat.mod_eq_of_lt (by omega)]
  omega

/-- The offset that an address in the buffer has. -/
theorem subSize_addSize {u : Nat} (hu : u < 2 ^ 64) (h : x + y < 2 ^ 64) :
    subSize (addSize x (addSize u y)) u = x + y := by
  simp only [subSize, addSize]
  omega

end Sizes

variable {tr : Request} {u : UInt64} {bufferSize : Nat}

/-- A request that is let through has no overflow. -/
theorem Request.bounds (h : tr.valid bufferSize = true) : Bounds (tr.frame u bufferSize) ∧
    (tr.frame u bufferSize).offEnd = (tr.frame u bufferSize).offStart + tr.offsetsSize.toNat ∧
    (tr.frame u bufferSize).sgEnd = (tr.frame u bufferSize).sgStart + tr.buffersSize.toNat := by
  have hd := tr.dataSize.toNat_lt
  have ho := tr.offsetsSize.toNat_lt
  have he := tr.buffersSize.toNat_lt
  have hu := u.toNat_lt
  simp only [Request.valid, Bool.and_eq_true, beq_iff_eq] at h
  obtain ⟨⟨hr, ho8⟩, he8⟩ := h
  simp only [Request.frame]
  generalize tr.dataSize.toNat = d at *
  generalize tr.offsetsSize.toNat = o at *
  generalize tr.buffersSize.toNat = e at *
  generalize u.toNat = v at *
  split at hr
  · rename_i size hreq
    simp only [requestSize] at hreq
    split at hreq
    · cases hreq
    rename_i h₁
    split at hreq
    · cases hreq
    rename_i h₂
    simp only [alignPtr, addSize, sizeofPtr] at h₁ h₂ ⊢
    refine ⟨⟨?_, ?_, ?_, ?_, ?_, ?_, ?_, hu⟩, by omega, by omega⟩ <;> dsimp only <;> omega
  · cases hr

/-! ## What holds -/

/-- What holds at any point of the loop; `mem₀` are the bytes before it. -/
structure Confined (F : Frame) (mem₀ : Bytes) (s : Vars) : Prop where
  accepted : ∀ x ∈ s.accepted, x.offset % 4 = 0 ∧ x.stop ≤ F.dataSize
  increasing : s.accepted.Pairwise fun x y => x.stop ≤ y.offset
  regions : ∀ r ∈ s.regions, F.sgStart ≤ r.start ∧ r.stop ≤ F.sgEnd
  apart : s.regions.Pairwise fun r r' => r.stop ≤ r'.start
  inBuffer : ∀ f ∈ s.fixups, f.kind ≠ .fd →
    ∃ r ∈ s.regions, r.object = f.parent ∧ r.start ≤ f.offset ∧ f.stop ≤ r.stop
  inObject : ∀ f ∈ s.fixups, f.kind = .fd →
    ∃ x ∈ s.accepted, x.kind = .fd ∧ x.offset = f.object ∧ f.offset = x.offset + 8
  disjoint : s.fixups.Pairwise fun f g => f.stop ≤ g.offset ∨ g.stop ≤ f.offset
  offsets : ∀ a, F.offStart ≤ a → a < F.offEnd → s.mem a = mem₀ a
  data : ∀ a < F.dataSize, (∀ x ∈ s.accepted, a < x.offset ∨ x.stop ≤ a) → s.mem a = mem₀ a

/-- `binder_validate_fixup` goes from the object `o`, with `a` as the least address, to the object `p`
with `b`: from an object to its parent, where what comes next is after the pointer to the object. -/
inductive Climb (fs : List Fixup) : Nat → Nat → Nat → Nat → Prop
  | here {o a : Nat} : Climb fs o a o a
  | up {o a p b : Nat} {f : Fixup} : f ∈ fs → f.kind = .ptr → f.object = o →
      Climb fs f.parent f.stop p b → Climb fs o a p b

/-- In every object on the way from `o`, all that has been fixed up is below the least address. -/
def Below (fs : List Fixup) (o a : Nat) : Prop :=
  ∀ p b, Climb fs o a p b → ∀ g ∈ fs, g.kind ≠ .fd → g.parent = p → g.stop ≤ b

/-- The `j`th entry of the offsets. -/
def offsetAt (F : Frame) (mem₀ : Bytes) (j : Nat) : Nat := load 8 mem₀ (F.offStart + 8 * j)

/-- The `BINDER_TYPE_PTR` object at `o`, the `j`th one, as it is in the buffer: it points to its region,
and the pointer to that is in the region of its parent. -/
structure PtrStored (F : Frame) (mem₀ : Bytes) (s : Vars) (j o : Nat) : Prop where
  region : ∃ r ∈ s.regions, r.object = o ∧ load 8 s.mem (o + 8) = addSize F.userData r.start ∧
    load 8 s.mem (o + 16) = r.length
  parent : hasParent (fun i => s.mem (o + i)) = true → load 8 s.mem (o + 24) < j ∧
    ∃ f ∈ s.fixups, f.kind = .ptr ∧ f.object = o ∧ f.parent = offsetAt F mem₀ (load 8 s.mem (o + 24)) ∧
      ∃ r ∈ s.regions, r.object = f.parent ∧ f.offset = r.start + load 8 s.mem (o + 32) ∧ f.stop ≤ r.stop

/-- The objects `xs`, which are done, are in the buffer as they were left, and the regions are theirs. -/
structure Stored (F : Frame) (mem₀ : Bytes) (s : Vars) (xs : List Accepted) : Prop where
  sub : ∀ x ∈ xs, x ∈ s.accepted
  offset : ∀ j x, xs[j]? = some x → x.offset = offsetAt F mem₀ j
  kind : ∀ x ∈ xs, x.kind ≠ .ptr → ObjKind.ofCode (load 4 s.mem x.offset) ≠ some .ptr
  ptr : ∀ j x, xs[j]? = some x → x.kind = .ptr → PtrStored F mem₀ s j x.offset
  owner : ∀ r ∈ s.regions, ∃ x ∈ s.accepted, x.kind = .ptr ∧ x.offset = r.object
  oneRegion : ∀ r ∈ s.regions, ∀ r' ∈ s.regions, r.object = r'.object → r = r'
  offMin : ∀ x ∈ s.accepted, x.stop ≤ s.offMin
  sgMin : ∀ r ∈ s.regions, r.stop ≤ s.sgBufOffset
  sgStart : F.sgStart ≤ s.sgBufOffset
  sgEnd : s.sgBufOffset ≤ F.sgEnd
  sg8 : s.sgBufOffset % 8 = 0

/-- The fixups are those of the objects `xs`, and below the least offsets. -/
structure Linked (s : Vars) (xs : List Accepted) : Prop where
  objects : ∀ f ∈ s.fixups, ∃ x ∈ xs, x.offset = f.object
  parents : ∀ f ∈ s.fixups, f.kind ≠ .fd → ∃ x ∈ xs, x.offset = f.parent
  up : ∀ f ∈ s.fixups, f.kind = .ptr → f.parent < f.object
  last : s.lastFixupObjOff ≠ 0 → ∃ x ∈ xs, x.kind = .ptr ∧ x.offset = s.lastFixupObjOff
  below : s.lastFixupObjOff ≠ 0 → ∀ r ∈ s.regions, r.object = s.lastFixupObjOff →
    Below s.fixups s.lastFixupObjOff (r.start + s.lastFixupMinOff)

/-- What holds between two objects. -/
structure Chained (F : Frame) (mem₀ : Bytes) (s : Vars) (xs : List Accepted) : Prop extends
  Stored F mem₀ s xs, Linked s xs

variable {σ : Type} {F : Frame} {H : Hooks σ} {mem₀ mem : Bytes} {s s' : Vars} {xs : List Accepted}
  {x : Accepted} {fs new : List Fixup} {f : Fixup} {o a p b q c i j k e : Nat} {obj : Bytes} {kind : ObjKind}

/-! ## The way up -/

namespace Climb

theorem trans (h : Climb fs o a p b) (h' : Climb fs p b q c) : Climb fs o a q c := by
  induction h with
  | here => exact h'
  | up hf hk ho _ ih => exact .up hf hk ho (ih h')

theorem le (hup : ∀ f ∈ fs, f.kind = .ptr → f.parent < f.object) (h : Climb fs o a p b) : p ≤ o := by
  induction h with
  | here => exact le_refl _
  | up hf hk ho _ ih =>
    have := hup _ hf hk
    omega

/-- Fixups of later objects are not on the way. -/
theorem of_append (hup : ∀ f ∈ fs, f.kind = .ptr → f.parent < f.object)
    (hnew : ∀ f ∈ new, f.kind = .ptr → o < f.object) (h : Climb (fs ++ new) o a p b) : Climb fs o a p b := by
  induction h with
  | here => exact .here
  | @up o a p b f hf hk ho _ ih =>
    rcases List.mem_append.mp hf with hf | hf
    · refine .up hf hk ho (ih fun g hg hgk => ?_)
      have := hup f hf hk
      have := hnew g hg hgk
      omega
    · exact absurd ho (hnew f hf hk).ne'

end Climb

/-- Fixups in an object on the way, after the least address there. -/
theorem Below.extend (hup : ∀ f ∈ fs, f.kind = .ptr → f.parent < f.object) (h : Below fs o a)
    (hclimb : Climb fs o a p b) (hbe : b ≤ e) (hnew : ∀ f ∈ new, f.parent = p ∧ f.stop ≤ e)
    (hlater : ∀ f ∈ new, f.kind = .ptr → p < f.object) : Below (fs ++ new) p e := by
  intro q c hc g hg hgk hgq
  cases hc with
  | here =>
    rcases List.mem_append.mp hg with hg | hg
    · exact (h _ _ hclimb g hg hgk hgq).trans hbe
    · exact (hnew g hg).2
  | @up _ _ _ _ f hf hk ho hrest =>
    rcases List.mem_append.mp hf with hf | hf
    · have hlt := hup f hf hk
      have hrest := hrest.of_append hup fun f' hf' hk' => by
        have := hlater f' hf' hk'
        omega
      have hle := hrest.le hup
      rcases List.mem_append.mp hg with hg | hg
      · exact h q c (hclimb.trans (.up hf hk ho hrest)) g hg hgk hgq
      · have := (hnew g hg).1
        omega
    · exact absurd ho (hlater f hf hk).ne'

/-! ## Lookups -/

theorem ObjKind.size_pos (kind : ObjKind) : 0 < kind.size := by cases kind <;> simp [ObjKind.size]

theorem getObject_some (hB : Bounds F) (h : getObject F mem o = some (kind, obj)) :
    o % 4 = 0 ∧ o + kind.size ≤ F.dataSize ∧ ObjKind.ofCode (load 4 mem o) = some kind ∧
      obj = fun i => mem (o + i) := by
  obtain ⟨hd, ho, hs, he, hm, -⟩ := hB
  simp only [getObject] at h
  split at h
  · cases h
  rename_i hcond
  split at h
  · cases h
  rename_i k hk
  split at h
  · rename_i hin
    cases h
    rw [subSize_eq hin.2 (by omega)] at hin
    simp only [not_or, Bool.not_eq_false, checkBuffer, Bool.and_eq_true, beq_iff_eq] at hcond
    exact ⟨hcond.2.2.2, by omega, hk, rfl⟩
  · cases h

theorem copyFrom_offset (hc : Confined F mem₀ s) (hi : F.offStart + 8 * (i + 1) ≤ F.offEnd)
    (h : copyFrom F s.mem 8 (F.offStart + 8 * i) = some o) : o = offsetAt F mem₀ i := by
  simp only [copyFrom] at h
  split at h
  · cases h
    exact load_congr fun a h₁ h₂ => hc.offsets a (by omega) (by omega)
  · cases h

theorem index_eq (hB : Bounds F) (hi : F.offStart + 8 * (i + 1) ≤ F.offEnd) :
    addSize F.offStart (mulSize 8 i) = F.offStart + 8 * i := by
  obtain ⟨hd, ho, hs, he, hm, -⟩ := hB
  rw [mulSize_eq (by omega), addSize_eq (by omega)]

/-- An offset is that of one object. -/
theorem Confined.unique (hc : Confined F mem₀ s) {y : Accepted} (hx : x ∈ s.accepted) (hy : y ∈ s.accepted)
    (h : x.offset = y.offset) : x = y := by
  have hlt {i j : Nat} (hi : i < s.accepted.length) (hj : j < s.accepted.length) (hij : i < j) :
      s.accepted[i].offset < s.accepted[j].offset := by
    have := List.pairwise_iff_getElem.mp hc.increasing i j hi hj hij
    have := s.accepted[i].kind.size_pos
    simp only [Accepted.stop] at *
    omega
  obtain ⟨i, hi, rfl⟩ := List.getElem_of_mem hx
  obtain ⟨j, hj, rfl⟩ := List.getElem_of_mem hy
  rcases Nat.lt_trichotomy i j with hij | rfl | hij
  · exact absurd h (hlt hi hj hij).ne
  · rfl
  · exact absurd h (hlt hj hi hij).ne'

/-- What `binder_validate_ptr` returns is a buffer object before the current one. -/
theorem validatePtr_some (hB : Bounds F) (hc : Confined F mem₀ s) (hch : Chained F mem₀ s xs)
    (hn : F.offStart + 8 * xs.length ≤ F.offEnd) (h : validatePtr F s.mem k xs.length = some (obj, o)) :
    ∃ y, xs[k]? = some y ∧ y.kind = .ptr ∧ y.offset = o ∧ o = offsetAt F mem₀ k ∧
      obj = fun i => s.mem (o + i) := by
  simp only [validatePtr] at h
  split at h
  · cases h
  rename_i hk
  rw [index_eq hB (by omega)] at h
  split at h
  · cases h
  rename_i v hv
  split at h
  · rename_i obj' hobj
    cases h
    obtain ⟨-, -, hcode, rfl⟩ := getObject_some hB hobj
    have hy := List.getElem?_eq_getElem (l := xs) (i := k) (by omega)
    have ho := copyFrom_offset hc (by omega) hv
    have hoff := hch.offset k _ hy
    refine ⟨_, hy, ?_, hoff.trans ho.symm, ho, rfl⟩
    by_contra hne
    refine hch.kind _ (List.mem_of_getElem? hy) hne ?_
    rw [hoff, ← ho, hcode]
  · cases h

/-- The way that `binder_validate_fixup` takes. -/
theorem walk_climb (hB : Bounds F) (hc : Confined F mem₀ s) (hch : Chained F mem₀ s xs)
    (hn : F.offStart + 8 * xs.length ≤ F.offEnd) (target fixupOffset fuel j : Nat) {y : Accepted}
    {r : Region} (min : Nat) (hy : xs[j]? = some y) (hk : y.kind = .ptr) (hj : j < fuel) (hr : r ∈ s.regions)
    (hro : r.object = y.offset) : ∃ res, walk F s.mem target fixupOffset fuel y.offset min = some res ∧
      (res = true → ∃ b, Climb s.fixups y.offset (r.start + min) target b ∧
        ∃ r' ∈ s.regions, r'.object = target ∧ b ≤ r'.start + fixupOffset) := by
  induction fuel generalizing j y r min with
  | zero => omega
  | succ fuel ih =>
    rw [walk]
    split
    · rename_i ht
      subst ht
      refine ⟨_, rfl, fun hle => ⟨_, .here, r, hr, hro, ?_⟩⟩
      have := of_decide_eq_true hle
      omega
    split
    · exact ⟨_, rfl, nofun⟩
    rename_i kind obj hobj
    split
    · exact ⟨_, rfl, nofun⟩
    rename_i hcond
    obtain ⟨-, -, -, rfl⟩ := getObject_some hB hobj
    simp only [Bool.or_eq_true, decide_eq_true_eq, Bool.not_eq_true', not_or, Bool.not_eq_false] at hcond
    obtain ⟨hlt, f, hf, hfk, hfo, hfp, r', hr', hro', hfoff, hfstop⟩ := (hch.ptr j y hy hk).parent hcond.2
    have hjl : j < xs.length := (List.getElem?_eq_some_iff.mp hy).1
    simp only [bboParent, bboParentOffset, load_from]
    generalize hkk : load 8 s.mem (y.offset + 24) = k at *
    generalize load 8 s.mem (y.offset + 32) = po at *
    rw [index_eq hB (by omega)]
    split
    · exact ⟨_, rfl, nofun⟩
    rename_i next hnext
    have hz := List.getElem?_eq_getElem (l := xs) (i := k) (by omega)
    have hzoff := hch.offset k _ hz
    obtain ⟨z', hz', hzk, hzo⟩ := hch.owner r' hr'
    have hzz := hc.unique (hch.sub _ (List.mem_of_getElem? hz)) hz' (by rw [hzoff, hzo, hro', hfp])
    have hpo : addSize po 8 = po + 8 := by
      have := (hc.regions r' hr').2
      have := hB.max
      simp only [Fixup.stop, hfk, if_true] at hfstop
      exact addSize_eq (by omega)
    obtain ⟨res, hres, hclimb⟩ := ih k (po + 8) hz (hzz ▸ hzk) (by omega) hr' (by rw [hro', hfp, hzoff])
    rw [copyFrom_offset hc (by omega) hnext, ← hzoff, hpo]
    refine ⟨res, hres, fun ht => ?_⟩
    obtain ⟨b, hb, hrest⟩ := hclimb ht
    refine ⟨b, .up hf hfk hfo ?_, hrest⟩
    rw [hfp, ← hzoff, show f.stop = r'.start + (po + 8) by
      rw [Fixup.stop, if_pos hfk, hfoff, Nat.add_assoc]]
    exact hb

/-- The object `p` is on the way up, and at `fixupOffset` in its region nothing has been fixed up yet. -/
def Allowed (s : Vars) (p fixupOffset : Nat) : Prop :=
  s.lastFixupObjOff ≠ 0 ∧ ∃ r ∈ s.regions, r.object = s.lastFixupObjOff ∧
    ∃ b, Climb s.fixups s.lastFixupObjOff (r.start + s.lastFixupMinOff) p b ∧
      ∃ r' ∈ s.regions, r'.object = p ∧ b ≤ r'.start + fixupOffset

theorem validateFixup_allowed (hB : Bounds F) (hc : Confined F mem₀ s) (hch : Chained F mem₀ s xs)
    (hn : F.offStart + 8 * xs.length ≤ F.offEnd) (p fixupOffset : Nat) :
    ∃ res, validateFixup F s.mem xs.length p fixupOffset s.lastFixupObjOff s.lastFixupMinOff = some res ∧
      (res = true → Allowed s p fixupOffset) := by
  rw [validateFixup]
  split
  · exact ⟨_, rfl, nofun⟩
  rename_i hlast
  obtain ⟨y, hy, hk, ho⟩ := hch.last hlast
  obtain ⟨j, hy⟩ := List.mem_iff_getElem?.mp hy
  obtain ⟨r, hr, hro, -⟩ := (hch.ptr j y hy hk).region
  obtain ⟨res, hres, hclimb⟩ := walk_climb hB hc hch hn p fixupOffset xs.length j s.lastFixupMinOff
    hy hk (List.getElem?_eq_some_iff.mp hy).1 hr hro
  rw [ho] at hres hclimb hro
  exact ⟨res, hres, fun ht => ⟨hlast, r, hr, hro, hclimb ht⟩⟩

/-! ## What a step changes -/

/-- The bytes of the data and the offsets that no accepted object has stay. -/
def Keeps (F : Frame) (xs : List Accepted) (mem mem' : Bytes) : Prop :=
  ∀ a < F.sgStart, (∀ x ∈ xs, a < x.offset ∨ x.stop ≤ a) → mem' a = mem a

namespace Confined

theorem setMem (hB : Bounds F) (hc : Confined F mem₀ s) (h : Keeps F s.accepted s.mem mem) :
    Confined F mem₀ { s with mem } := by
  obtain ⟨hd, ho, hs, -⟩ := hB
  refine { hc with offsets := fun a h₁ h₂ => ?_, data := fun a ha hx => ?_ }
  · refine (h a (by omega) fun x hx => .inr ?_).trans (hc.offsets a h₁ h₂)
    exact ((hc.accepted x hx).2.trans hd).trans h₁
  · exact (h a (by omega) hx).trans (hc.data a ha hx)

theorem accept (hc : Confined F mem₀ s) (hmin : ∀ y ∈ s.accepted, y.stop ≤ x.offset) (h4 : x.offset % 4 = 0)
    (hx : x.stop ≤ F.dataSize) (offMin : Nat) :
    Confined F mem₀ { s with offMin, accepted := s.accepted ++ [x] } := by
  refine { hc with
    accepted := fun y hy => ?_, increasing := ?_, inObject := fun f hf hk => ?_,
    data := fun a ha hy => ?_ }
  · rcases List.mem_append.mp hy with hy | hy
    · exact hc.accepted y hy
    · rw [List.mem_singleton.mp hy]
      exact ⟨h4, hx⟩
  · refine List.pairwise_append.mpr ⟨hc.increasing, List.pairwise_singleton .., fun y hy z hz => ?_⟩
    rw [List.mem_singleton.mp hz]
    exact hmin y hy
  · obtain ⟨y, hy, hrest⟩ := hc.inObject f hf hk
    exact ⟨y, List.mem_append_left _ hy, hrest⟩
  · exact hc.data a ha fun y hy' => hy y (List.mem_append_left _ hy')

theorem addRegion (hc : Confined F mem₀ s) {r : Region} (hr : F.sgStart ≤ r.start ∧ r.stop ≤ F.sgEnd)
    (hmin : ∀ r' ∈ s.regions, r'.stop ≤ r.start) (sgBufOffset : Nat) :
    Confined F mem₀ { s with sgBufOffset, regions := s.regions ++ [r] } := by
  refine { hc with regions := fun r' hr' => ?_, apart := ?_, inBuffer := fun f hf hk => ?_ }
  · rcases List.mem_append.mp hr' with hr' | hr'
    · exact hc.regions r' hr'
    · rw [List.mem_singleton.mp hr']
      exact hr
  · refine List.pairwise_append.mpr ⟨hc.apart, List.pairwise_singleton .., fun r₁ h₁ r₂ h₂ => ?_⟩
    rw [List.mem_singleton.mp h₂]
    exact hmin r₁ h₁
  · obtain ⟨r', hr', hrest⟩ := hc.inBuffer f hf hk
    exact ⟨r', List.mem_append_left _ hr', hrest⟩

/-- Two regions are the same, or apart. -/
theorem region_eq_or (hc : Confined F mem₀ s) {r r' : Region} (hr : r ∈ s.regions) (hr' : r' ∈ s.regions) :
    r = r' ∨ r.stop ≤ r'.start ∨ r'.stop ≤ r.start := by
  obtain ⟨i, hi, rfl⟩ := List.getElem_of_mem hr
  obtain ⟨j, hj, rfl⟩ := List.getElem_of_mem hr'
  have hp := List.pairwise_iff_getElem.mp hc.apart
  rcases Nat.lt_trichotomy i j with hij | rfl | hij
  · exact .inr (.inl (hp i j hi hj hij))
  · exact .inl rfl
  · exact .inr (.inr (hp j i hj hi hij))

/-- What is fixed up where it is allowed does not meet what was fixed up before. -/
theorem disjoint_allowed (hB : Bounds F) (hc : Confined F mem₀ s)
    (hch : Chained F mem₀ s xs) {fixupOffset : Nat}
    (ha : Allowed s p fixupOffset) {r : Region} (hr : r ∈ s.regions) (hro : r.object = p)
    (hoff : r.start + fixupOffset ≤ f.offset) (hstop : f.stop ≤ r.stop) {g : Fixup} (hg : g ∈ s.fixups) :
    g.stop ≤ f.offset ∨ f.stop ≤ g.offset := by
  obtain ⟨hlast, r₀, hr₀, hro₀, b, hclimb, r', hr', hro', hb⟩ := ha
  obtain rfl := hch.oneRegion r hr r' hr' (hro.trans hro'.symm)
  by_cases hk : g.kind = .fd
  · obtain ⟨y, hy, hyk, -, hgo⟩ := hc.inObject g hg hk
    have hyd := (hc.accepted y hy).2
    have hrs := (hc.regions r hr).1
    obtain ⟨hd, ho, hs, -⟩ := hB
    simp only [Accepted.stop, hyk, ObjKind.size] at hyd
    refine .inl ?_
    simp only [Fixup.stop, hk, reduceCtorEq, if_false]
    omega
  by_cases hp : g.parent = p
  · have := hch.below hlast r₀ hr₀ hro₀ p b hclimb g hg hk hp
    exact .inl (by omega)
  · obtain ⟨rg, hrg, hrgo, hgstart, hgstop⟩ := hc.inBuffer g hg hk
    rcases hc.region_eq_or hrg hr with rfl | h | h
    · exact absurd (hrgo.symm.trans hro) hp
    · exact .inl (by omega)
    · exact .inr (by omega)

/-- More fixups, in the region of one object. -/
theorem addFixups (hc : Confined F mem₀ s) {r : Region} (hr : r ∈ s.regions)
    (hin : ∀ f ∈ new, f.kind ≠ .fd ∧ r.object = f.parent ∧ r.start ≤ f.offset ∧ f.stop ≤ r.stop)
    (hnew : new.Pairwise fun f g => f.stop ≤ g.offset ∨ g.stop ≤ f.offset)
    (hold : ∀ f ∈ new, ∀ g ∈ s.fixups, g.stop ≤ f.offset ∨ f.stop ≤ g.offset) :
    Confined F mem₀ { s with fixups := s.fixups ++ new } := by
  refine { hc with inBuffer := fun f hf hk => ?_, inObject := fun f hf hk => ?_, disjoint := ?_ }
  · rcases List.mem_append.mp hf with hf | hf
    · exact hc.inBuffer f hf hk
    · exact ⟨r, hr, (hin f hf).2⟩
  · rcases List.mem_append.mp hf with hf | hf
    · exact hc.inObject f hf hk
    · exact absurd hk (hin f hf).1
  · exact List.pairwise_append.mpr ⟨hc.disjoint, hnew, fun g hg f hf => hold f hf g hg⟩

/-- The descriptor of the last object. -/
theorem addFd (hB : Bounds F) (hc : Confined F mem₀ s) (hch : Chained F mem₀ s xs)
    (hacc : s.accepted = xs ++ [x]) (hk : x.kind = .fd) :
    Confined F mem₀ { s with fixups := s.fixups ++ [⟨.fd, x.offset, x.offset, x.offset + 8⟩] } := by
  have hx : x ∈ s.accepted := by simp [hacc]
  refine { hc with inBuffer := fun f hf hk => ?_, inObject := fun f hf hk => ?_, disjoint := ?_ }
  · rcases List.mem_append.mp hf with hf | hf
    · exact hc.inBuffer f hf hk
    · rw [List.mem_singleton.mp hf] at hk
      exact absurd rfl hk
  · rcases List.mem_append.mp hf with hf | hf
    · exact hc.inObject f hf hk
    · rw [List.mem_singleton.mp hf]
      exact ⟨x, hx, by assumption, rfl, rfl⟩
  · refine List.pairwise_append.mpr ⟨hc.disjoint, List.pairwise_singleton .., fun g hg f hf => ?_⟩
    rw [List.mem_singleton.mp hf]
    have hstop := (hc.accepted x hx).2
    obtain ⟨hd, ho, hs, -⟩ := hB
    simp only [Fixup.stop, Accepted.stop, hk, ObjKind.size, reduceCtorEq, if_false] at hstop ⊢
    by_cases hgk : g.kind = .fd
    · obtain ⟨y, hy, hyk, hyo, hgo⟩ := hc.inObject g hg hgk
      obtain ⟨z, hz, hzo⟩ := hch.objects g hg
      obtain rfl := hc.unique hy (hch.sub z hz) (hyo.trans hzo.symm)
      have hinc := hc.increasing
      rw [hacc] at hinc
      have := (List.pairwise_append.mp hinc).2.2 y hz x (by simp)
      simp only [Accepted.stop, hyk, ObjKind.size] at this
      simp only [hgk, reduceCtorEq, if_false]
      exact .inl (by omega)
    · obtain ⟨r, hr, -, hstart, -⟩ := hc.inBuffer g hg hgk
      have := (hc.regions r hr).1
      exact .inr (by omega)

end Confined

theorem PtrStored.mono (h : PtrStored F mem₀ s j o) (hmem : ∀ a, o ≤ a → a < o + 40 → s'.mem a = s.mem a)
    (hr : ∀ r ∈ s.regions, r ∈ s'.regions) (hf : ∀ f ∈ s.fixups, f ∈ s'.fixups) :
    PtrStored F mem₀ s' j o := by
  have hload {n k : Nat} (hk : k + n ≤ 40) : load n s'.mem (o + k) = load n s.mem (o + k) :=
    load_congr fun a h₁ h₂ => hmem a (by omega) (by omega)
  have hpar : hasParent (fun i => s'.mem (o + i)) = hasParent (fun i => s.mem (o + i)) := by
    rw [hasParent, hasParent, bboFlags, bboFlags, load_from, load_from, hload (by omega)]
  obtain ⟨⟨r, hrm, hro, hbuf, hlen⟩, hparent⟩ := h
  refine ⟨⟨r, hr r hrm, hro, by rw [hload (by omega), hbuf], by rw [hload (by omega), hlen]⟩, fun hp => ?_⟩
  rw [hpar] at hp
  obtain ⟨hlt, f, hfm, hfk, hfo, hfp, r', hr', hrest⟩ := hparent hp
  rw [hload (by omega), hload (by omega)]
  exact ⟨hlt, f, hf f hfm, hfk, hfo, hfp, r', hr r' hr', hrest⟩

namespace Stored

/-- The bytes of the objects before stay. -/
theorem setMem (hB : Bounds F) (hc : Confined F mem₀ s) (h : Stored F mem₀ s xs) {ys : List Accepted}
    (hys : ∀ x ∈ xs, ∀ y ∈ ys, x.stop ≤ y.offset) (hmem : Keeps F ys s.mem mem) :
    Stored F mem₀ { s with mem } xs := by
  have same {y : Accepted} (hy : y ∈ xs) {a : Nat} (h₂ : a < y.stop) : mem a = s.mem a := by
    have := (hc.accepted y (h.sub y hy)).2
    obtain ⟨hd, ho, hs, -⟩ := hB
    refine hmem a (by omega) fun z hz => .inl ?_
    have := hys y hy z hz
    omega
  refine { h with kind := fun y hy hk => ?_, ptr := fun j y hy hk => ?_ }
  · have hsz : 4 ≤ y.kind.size := by cases y.kind <;> simp [ObjKind.size]
    have : load 4 mem y.offset = load 4 s.mem y.offset := load_congr fun a _ h₂ => same hy (by
      rw [Accepted.stop]
      omega)
    rw [this]
    exact h.kind y hy hk
  · refine (h.ptr j y hy hk).mono (fun a _ h₂ => same (List.mem_of_getElem? hy) ?_) (fun r hr => hr)
      fun f hf => hf
    rwa [Accepted.stop, hk, ObjKind.size]

/-- The fixups do not concern the objects. -/
theorem addFixups (h : Stored F mem₀ s xs) (new : List Fixup) (lastFixupObjOff lastFixupMinOff : Nat) :
    Stored F mem₀ { s with fixups := s.fixups ++ new, lastFixupObjOff, lastFixupMinOff } xs :=
  { h with
    ptr := fun j y hy hk => (h.ptr j y hy hk).mono (fun _ _ _ => rfl) (fun _ hr => hr)
      (fun _ hf => List.mem_append_left _ hf) }

/-- The region of the current object. -/
theorem addRegion (h : Stored F mem₀ s xs) {r : Region} {sgBufOffset : Nat} (hx : x ∈ s.accepted)
    (hk : x.kind = .ptr) (ho : x.offset = r.object) (hnew : ∀ r' ∈ s.regions, r'.object ≠ r.object)
    (hle : s.sgBufOffset ≤ sgBufOffset) (hstop : r.stop ≤ sgBufOffset) (hend : sgBufOffset ≤ F.sgEnd)
    (h8 : sgBufOffset % 8 = 0) :
    Stored F mem₀ { s with sgBufOffset, regions := s.regions ++ [r] } xs := by
  refine { h with
    ptr := fun j y hy hk => ?_, owner := fun r' hr' => ?_,
    oneRegion := fun r₁ h₁ r₂ h₂ heq => ?_, sgMin := fun r' hr' => ?_, sgStart := h.sgStart.trans hle,
    sgEnd := hend, sg8 := h8 }
  · exact (h.ptr j y hy hk).mono (fun _ _ _ => rfl) (fun _ hr => List.mem_append_left _ hr) fun _ hf => hf
  · rcases List.mem_append.mp hr' with hr' | hr'
    · exact h.owner r' hr'
    · rw [List.mem_singleton.mp hr']
      exact ⟨x, hx, hk, ho⟩
  · rcases List.mem_append.mp h₁ with h₁ | h₁ <;> rcases List.mem_append.mp h₂ with h₂ | h₂
    · exact h.oneRegion r₁ h₁ r₂ h₂ heq
    · rw [List.mem_singleton.mp h₂] at heq
      exact absurd heq (hnew r₁ h₁)
    · rw [List.mem_singleton.mp h₁] at heq
      exact absurd heq.symm (hnew r₂ h₂)
    · rw [List.mem_singleton.mp h₁, List.mem_singleton.mp h₂]
  · rcases List.mem_append.mp hr' with hr' | hr'
    · exact (h.sgMin r' hr').trans hle
    · rw [List.mem_singleton.mp hr']
      exact hstop

/-- The next object is done. -/
theorem next (h : Stored F mem₀ s xs) (hx : x ∈ s.accepted) (ho : x.offset = offsetAt F mem₀ xs.length)
    (hcode : x.kind ≠ .ptr → ObjKind.ofCode (load 4 s.mem x.offset) ≠ some .ptr)
    (hptr : x.kind = .ptr → PtrStored F mem₀ s xs.length x.offset) : Stored F mem₀ s (xs ++ [x]) := by
  have get {j : Nat} {y : Accepted} (hy : (xs ++ [x])[j]? = some y) :
      xs[j]? = some y ∨ j = xs.length ∧ y = x := by
    rcases Nat.lt_trichotomy j xs.length with hj | rfl | hj
    · exact .inl (by rwa [List.getElem?_append_left hj] at hy)
    · exact .inr ⟨rfl, by simpa [eq_comm] using hy⟩
    · rw [List.getElem?_eq_none (by simpa using hj)] at hy
      cases hy
  refine { h with
    sub := fun y hy => ?_, offset := fun j y hy => ?_, kind := fun y hy hyk => ?_,
    ptr := fun j y hy hyk => ?_ }
  · rcases List.mem_append.mp hy with hy | hy
    · exact h.sub y hy
    · exact List.mem_singleton.mp hy ▸ hx
  · rcases get hy with hy | ⟨rfl, rfl⟩
    · exact h.offset j y hy
    · exact ho
  · rcases List.mem_append.mp hy with hy | hy
    · exact h.kind y hy hyk
    · obtain rfl := List.mem_singleton.mp hy
      exact hcode hyk
  · rcases get hy with hy | ⟨rfl, rfl⟩
    · exact h.ptr j y hy hyk
    · exact hptr hyk

end Stored

namespace Linked

theorem mono (h : Linked s xs) {ys : List Accepted} (hys : ∀ x ∈ xs, x ∈ ys) : Linked s ys where
  objects f hf := (h.objects f hf).imp fun _ ⟨hx, ho⟩ => ⟨hys _ hx, ho⟩
  parents f hf hk := (h.parents f hf hk).imp fun _ ⟨hx, ho⟩ => ⟨hys _ hx, ho⟩
  up := h.up
  last hl := (h.last hl).imp fun _ ⟨hx, ho⟩ => ⟨hys _ hx, ho⟩
  below := h.below

/-- The region of another object. -/
theorem addRegion (h : Linked s xs) {r : Region} (hr : ∀ y ∈ xs, y.offset ≠ r.object) (sgBufOffset : Nat) :
    Linked { s with sgBufOffset, regions := s.regions ++ [r] } xs := by
  refine { h with below := fun hl r' hr' hro => ?_ }
  rcases List.mem_append.mp hr' with hr' | hr'
  · exact h.below hl r' hr' hro
  · obtain ⟨y, hy, -, hyo⟩ := h.last hl
    rw [List.mem_singleton.mp hr'] at hro
    exact absurd (hyo.trans hro.symm) (hr y hy)

theorem addFd (h : Linked s xs) (hx : x ∈ xs) :
    Linked { s with fixups := s.fixups ++ [⟨.fd, x.offset, x.offset, x.offset + 8⟩] } xs := by
  refine { h with
    objects := fun f hf => ?_, parents := fun f hf hk => ?_, up := fun f hf hk => ?_,
    below := fun hl r hr hro p b hc g hg hgk hgp => ?_ }
  · rcases List.mem_append.mp hf with hf | hf
    · exact h.objects f hf
    · rw [List.mem_singleton.mp hf]
      exact ⟨x, hx, rfl⟩
  · rcases List.mem_append.mp hf with hf | hf
    · exact h.parents f hf hk
    · rw [List.mem_singleton.mp hf] at hk
      exact absurd rfl hk
  · rcases List.mem_append.mp hf with hf | hf
    · exact h.up f hf hk
    · rw [List.mem_singleton.mp hf] at hk
      cases hk
  · have hc := hc.of_append h.up fun f hf hk => by
      rw [List.mem_singleton.mp hf] at hk
      cases hk
    rcases List.mem_append.mp hg with hg | hg
    · exact h.below hl r hr hro p b hc g hg hgk hgp
    · rw [List.mem_singleton.mp hg] at hgk
      exact absurd rfl hgk

/-- The descriptors of the object `x` in the buffer of `p`. -/
theorem addFda (h : Linked s xs) (hx : x ∈ xs) {y : Accepted} (hy : y ∈ xs) (hyk : y.kind = .ptr)
    {fixupOffset : Nat} (ha : Allowed s y.offset fixupOffset) (hone : ∀ r ∈ s.regions, ∀ r' ∈ s.regions,
      r.object = r'.object → r = r') {m : Nat} (hm : fixupOffset ≤ m)
    (hnew : ∀ f ∈ new, f.kind = .fda ∧ f.object = x.offset ∧ f.parent = y.offset)
    (hstop : ∀ f ∈ new, ∀ r ∈ s.regions, r.object = y.offset → f.stop ≤ r.start + m) :
    Linked { s with fixups := s.fixups ++ new, lastFixupObjOff := y.offset, lastFixupMinOff := m } xs := by
  refine ⟨fun f hf => ?_, fun f hf hk => ?_, fun f hf hk => ?_, fun _ => ⟨y, hy, hyk, rfl⟩,
    fun _ r hr hro => ?_⟩
  · rcases List.mem_append.mp hf with hf | hf
    · exact h.objects f hf
    · exact ⟨x, hx, (hnew f hf).2.1.symm⟩
  · rcases List.mem_append.mp hf with hf | hf
    · exact h.parents f hf hk
    · exact ⟨y, hy, (hnew f hf).2.2.symm⟩
  · rcases List.mem_append.mp hf with hf | hf
    · exact h.up f hf hk
    · rw [(hnew f hf).1] at hk
      cases hk
  · obtain ⟨hl, r₀, hr₀, hro₀, b, hclimb, r', hr', hro', hb⟩ := ha
    obtain rfl := hone r hr r' hr' (hro.trans hro'.symm)
    refine (h.below hl r₀ hr₀ hro₀).extend h.up hclimb (hb.trans (Nat.add_le_add_left hm _))
      (fun f hf => ⟨(hnew f hf).2.2, hstop f hf r hr hro⟩) fun f hf hk => ?_
    rw [(hnew f hf).1] at hk
    cases hk

/-- A buffer object, with the pointer to it if it has a parent. -/
theorem addPtr (h : Linked s xs) (hk : x.kind = .ptr) (hlt : ∀ y ∈ xs, y.offset < x.offset)
    (hnew : new = [] ∨ ∃ f, ∃ y ∈ xs, ∃ fixupOffset, ∃ r ∈ s.regions, new = [f] ∧ f.kind = .ptr ∧
      f.object = x.offset ∧ f.parent = y.offset ∧ Allowed s y.offset fixupOffset ∧ r.object = y.offset ∧
      f.offset = r.start + fixupOffset)
    (hone : ∀ r ∈ s.regions, ∀ r' ∈ s.regions, r.object = r'.object → r = r') :
    Linked { s with fixups := s.fixups ++ new, lastFixupObjOff := x.offset, lastFixupMinOff := 0 }
    (xs ++ [x]) := by
  have hxmem : x ∈ xs ++ [x] := by simp
  have parent_lt {g : Fixup} (hg : g ∈ s.fixups ++ new) (hgk : g.kind ≠ .fd) : g.parent < x.offset := by
    rcases List.mem_append.mp hg with hg | hg
    · obtain ⟨y, hy, hyo⟩ := h.parents g hg hgk
      exact hyo ▸ hlt y hy
    · rcases hnew with rfl | ⟨f, y, hy, _, _, _, rfl, -, -, hfp, -⟩
      · cases hg
      · rw [List.mem_singleton.mp hg, hfp]
        exact hlt y hy
  refine ⟨fun f hf => ?_, fun f hf hk => ?_, fun f hf hk => ?_, fun _ => ⟨x, hxmem, hk, rfl⟩,
    fun _ r hr hro => ?_⟩
  · rcases List.mem_append.mp hf with hf | hf
    · exact (h.objects f hf).imp fun _ ⟨hy, hyo⟩ => ⟨List.mem_append_left _ hy, hyo⟩
    · rcases hnew with rfl | ⟨f', y, hy, _, _, _, rfl, -, hfo, -⟩
      · cases hf
      · exact ⟨x, hxmem, by rw [List.mem_singleton.mp hf, hfo]⟩
  · rcases List.mem_append.mp hf with hf | hf
    · exact (h.parents f hf hk).imp fun _ ⟨hy, hyo⟩ => ⟨List.mem_append_left _ hy, hyo⟩
    · rcases hnew with rfl | ⟨f', y, hy, _, _, _, rfl, -, -, hfp, -⟩
      · cases hf
      · exact ⟨y, List.mem_append_left _ hy, by rw [List.mem_singleton.mp hf, hfp]⟩
  · rcases List.mem_append.mp hf with hf' | hf'
    · exact h.up f hf' hk
    · have := parent_lt hf (by rw [hk]; nofun)
      rcases hnew with rfl | ⟨f', y, hy, _, _, _, rfl, -, hfo, -⟩
      · cases hf'
      · rw [List.mem_singleton.mp hf'] at this ⊢
        rwa [hfo]
  · intro p b hc g hg hgk hgp
    cases hc with
    | here => exact absurd hgp (parent_lt hg hgk).ne
    | @up _ _ _ _ f hf hfk hfo hrest =>
      rcases List.mem_append.mp hf with hf | hf
      · obtain ⟨y, hy, hyo⟩ := h.objects f hf
        exact absurd (hyo.trans hfo) (hlt y hy).ne
      rcases hnew with rfl | ⟨f', y, hy, fo, r', hr', rfl, -, hfo', hfp, ha, hro', hoff⟩
      · cases hf
      obtain rfl := List.mem_singleton.mp hf
      obtain ⟨hl, r₀, hr₀, hro₀, b, hclimb, r₁, hr₁, hro₁, hb⟩ := ha
      obtain rfl := hone r' hr' r₁ hr₁ (hro'.trans hro₁.symm)
      have hle : b ≤ f.stop := by
        rw [Fixup.stop, hoff]
        omega
      rw [hfp] at hrest
      refine (h.below hl r₀ hr₀ hro₀).extend h.up hclimb hle (fun g hg => ?_)
        (fun g hg _ => ?_) p _ hrest g hg hgk hgp
      · rw [List.mem_singleton.mp hg]
        exact ⟨hfp, le_refl _⟩
      · rw [List.mem_singleton.mp hg, hfo']
        exact hlt y hy

end Linked

/-! ## The steps -/

/-- The loop works on the object `x`; `xs` are done. -/
structure Current (F : Frame) (mem₀ : Bytes) (s : Vars) (xs : List Accepted) (x : Accepted) : Prop where
  confined : Confined F mem₀ s
  chained : Chained F mem₀ s xs
  accepted : s.accepted = xs ++ [x]
  offset : x.offset = offsetAt F mem₀ xs.length
  listed : F.offStart + 8 * (xs.length + 1) ≤ F.offEnd
  code : ObjKind.ofCode (load 4 s.mem x.offset) = some x.kind

/-- A step ends with the objects `xs` done, or it fails; either way all is confined. -/
def Good (F : Frame) (mem₀ : Bytes) (xs : List Accepted) : Res (State σ) → Prop
  | .ok s => s.accepted = xs ∧ Confined F mem₀ s.toVars ∧ Chained F mem₀ s.toVars xs
  | .fail s => Confined F mem₀ s.toVars
  | .stuck => False

theorem keeps_blit {n : Nat} (hn : n ≤ x.kind.size) (obj : Bytes) : Keeps F [x] mem (blit n mem x.offset obj) :=
  fun a _ hx => blit_out ((hx x (by simp)).imp_right fun h => by
    rw [Accepted.stop] at h
    omega)

theorem Keeps.trans {mem' mem'' : Bytes} (h : Keeps F xs mem mem') (h' : Keeps F xs mem' mem'') :
    Keeps F xs mem mem'' := fun a ha hx => (h' a ha hx).trans (h a ha hx)

/-- The bytes after the offsets do not matter. -/
theorem keeps_sg {mem' : Bytes} (h : ∀ a < F.sgStart, mem' a = mem a) : Keeps F xs mem mem' :=
  fun a ha _ => h a ha

namespace Current

theorem mem_accepted (h : Current F mem₀ s xs x) : x ∈ s.accepted := by simp [h.accepted]

theorem before (h : Current F mem₀ s xs x) {y : Accepted} (hy : y ∈ xs) : y.stop ≤ x.offset := by
  have hinc := h.confined.increasing
  rw [h.accepted] at hinc
  exact (List.pairwise_append.mp hinc).2.2 y hy x (by simp)

theorem lt (h : Current F mem₀ s xs x) {y : Accepted} (hy : y ∈ xs) : y.offset < x.offset := by
  have := h.before hy
  have := y.kind.size_pos
  simp only [Accepted.stop] at *
  omega

/-- The bytes of the object, and those after the offsets, change. -/
theorem setMem (hB : Bounds F) (h : Current F mem₀ s xs x) {mem : Bytes} (hmem : Keeps F [x] s.mem mem) :
    Confined F mem₀ { s with mem } ∧ Chained F mem₀ { s with mem } xs := by
  refine ⟨h.confined.setMem hB fun a ha hx => hmem a ha fun y hy => hx y ?_,
    { h.chained.setMem hB h.confined (fun y hy z hz => ?_) hmem, h.chained.toLinked with }⟩
  · rw [List.mem_singleton.mp hy]
    exact h.mem_accepted
  · rw [List.mem_singleton.mp hz]
    exact h.before hy

/-- Another object than a buffer object is written. -/
theorem put (hB : Bounds F) (h : Current F mem₀ s xs x) (hk : x.kind ≠ .ptr) {obj : Bytes}
    (hcode : ObjKind.ofCode (load 4 obj 0) ≠ some .ptr) :
    Confined F mem₀ { s with mem := blit x.kind.size s.mem x.offset obj } ∧
      Chained F mem₀ { s with mem := blit x.kind.size s.mem x.offset obj } (xs ++ [x]) := by
  obtain ⟨hc, hch⟩ := h.setMem hB (keeps_blit le_rfl obj)
  have hsz : 0 + 4 ≤ x.kind.size := by cases x.kind <;> simp [ObjKind.size]
  refine ⟨hc, { hch.toStored.next h.mem_accepted h.offset (fun _ => ?_) (fun hk' => absurd hk' hk),
    hch.toLinked.mono fun y hy => List.mem_append_left _ hy with }⟩
  have hload : load 4 (blit x.kind.size s.mem x.offset obj) (x.offset + 0) = load 4 obj 0 := load_blit hsz
  rw [Nat.add_zero] at hload
  rw [hload]
  exact hcode

end Current

variable {st : State σ}

theorem ofCode_code : ObjKind.ofCode kind.code = some kind := by
  cases kind with
  | flat type => cases type <;> rfl
  | _ => rfl

theorem code_lt : kind.code < 256 ^ 4 := by
  cases kind with
  | flat type => cases type <;> decide
  | _ => decide

theorem load_putFlat {o : Refs.FlatObject} : load 4 (putFlat o obj) 0 = (ObjKind.flat o.type).code := by
  rw [putFlat, load_store_out (by omega), load_store_out (by omega), load_store, Nat.mod_eq_of_lt code_lt]

theorem flatStep_good (hB : Bounds F) (h : Current F mem₀ st.toVars xs x) {type : Refs.ObjType}
    (hk : x.kind = .flat type) (obj : Bytes) : Good F mem₀ (xs ++ [x])
    (flatStep F H i x.offset type obj st) := by
  rw [flatStep]
  split
  · exact h.confined
  · rename_i o out _
    rw [putObject]
    split
    · have hcode : ObjKind.ofCode (load 4 (putFlat o obj) 0) ≠ some .ptr := by
        rw [load_putFlat, ofCode_code]
        nofun
      have hput := h.put hB (by rw [hk]; nofun) hcode
      rw [hk] at hput
      exact ⟨h.accepted, hput⟩
    · exact h.confined

theorem fdStep_good (hB : Bounds F) (h : Current F mem₀ st.toVars xs x) (hk : x.kind = .fd)
    (hobj : ObjKind.ofCode (load 4 obj 0) = some .fd) :
    Good F mem₀ (xs ++ [x]) (fdStep F H i x.offset obj st) := by
  rw [fdStep]
  split
  · exact h.confined
  have hfd := h.confined.addFd hB h.chained h.accepted hk
  rw [putObject]
  split
  · have hcode : ObjKind.ofCode (load 4 (store 8 obj 8 0) 0) ≠ some .ptr := by
      rw [load_store_out (by omega), hobj]
      nofun
    obtain ⟨-, hch⟩ := h.put hB (by rw [hk]; nofun) hcode
    refine ⟨h.accepted, ?_, ?_⟩
    · refine hfd.setMem hB fun a ha hx => keeps_blit (x := x) (by simp [hk]) _ a ha fun y hy => hx y ?_
      rw [List.mem_singleton.mp hy]
      exact h.mem_accepted
    · rw [hk] at hch
      exact { hch.toStored.addFixups _ _ _, hch.toLinked.addFd (x := x) (by simp) with }
  · exact hfd

/-- The fixups of the first `n` descriptors of an array. -/
def fdSlots (object parent fdaOffset n : Nat) : List Fixup :=
  (List.range n).map fun k => ⟨.fda, object, parent, addSize fdaOffset (mulSize k 4)⟩

theorem translateFds_eq (st : State σ) (object parent fdaOffset n : Nat) : ∃ m ≤ n, ∃ out,
    (translateFds F H i object parent fdaOffset n st =
        .ok { st with out, fixups := st.fixups ++ fdSlots object parent fdaOffset m } ∧ m = n) ∨
      translateFds F H i object parent fdaOffset n st =
        .fail { st with out, fixups := st.fixups ++ fdSlots object parent fdaOffset m } := by
  induction n with
  | zero => exact ⟨0, le_rfl, st.out, .inl ⟨by simp [translateFds, fdSlots], rfl⟩⟩
  | succ n ih =>
    rw [translateFds]
    obtain ⟨m, hm, out, ⟨heq, rfl⟩ | heq⟩ := ih
    · rw [heq]
      dsimp only
      split
      · exact ⟨m, Nat.le_succ m, out, .inr rfl⟩
      split
      · rename_i out' _
        exact ⟨m, Nat.le_succ m, out', .inr rfl⟩
      · rename_i out' _
        refine ⟨m + 1, le_rfl, out', .inl ⟨?_, rfl⟩⟩
        simp [fdSlots, List.range_succ]
    · rw [heq]
      exact ⟨m, hm.trans (Nat.le_succ n), out, .inr rfl⟩

/-- What `binder_validate_ptr` and `binder_validate_fixup` make sure of: the parent is a buffer object
with a region, where `fixupOffset` is free. -/
theorem Current.parent (hB : Bounds F) (h : Current F mem₀ s xs x) (fixupOffset : Nat)
    (hp : validatePtr F s.mem k xs.length = some (obj, p)) :
    ∃ y r, xs[k]? = some y ∧ y.kind = .ptr ∧ y.offset = p ∧ p = offsetAt F mem₀ k ∧ r ∈ s.regions ∧
      r.object = p ∧ bboBuffer obj = addSize F.userData r.start ∧ bboLength obj = r.length ∧
      ∃ res, validateFixup F s.mem xs.length p fixupOffset s.lastFixupObjOff s.lastFixupMinOff = some res ∧
        (res = true → Allowed s p fixupOffset) := by
  have hn : F.offStart + 8 * xs.length ≤ F.offEnd := by
    have := h.listed
    omega
  obtain ⟨y, hy, hyk, hyo, hp₀, rfl⟩ := validatePtr_some hB h.confined h.chained hn hp
  obtain ⟨r, hr, hro, hbuf, hlen⟩ := (h.chained.ptr k y hy hyk).region
  rw [hyo] at hbuf hlen hro
  refine ⟨y, r, hy, hyk, hyo, hp₀, hr, hro, ?_, ?_,
    validateFixup_allowed hB h.confined h.chained hn p fixupOffset⟩
  · rw [bboBuffer, load_from, hbuf]
  · rw [bboLength, load_from, hlen]

theorem fdaStep_good (hB : Bounds F) (h : Current F mem₀ st.toVars xs x) (hk : x.kind = .fda) (fda : Bytes) :
    Good F mem₀ (xs ++ [x]) (fdaStep F H xs.length x.offset fda st) := by
  rw [fdaStep]
  split
  · exact h.confined
  rename_i parentObj p hp
  obtain ⟨y, r, hy, hyk, hyo, -, hr, hro, hbuf, hlen, res, hres, hallowed⟩ :=
    h.parent hB (fdaParentOffset fda) hp
  rw [hres]
  cases res with
  | false => exact h.confined
  | true =>
    have ha := hallowed rfl
    dsimp only
    rw [translateFdArray]
    generalize fdaParentOffset fda = po at *
    generalize fdaNumFds fda = n at *
    by_cases hn : n ≥ (2 ^ 64 - 1) / 4
    · rw [if_pos hn]
      exact h.confined
    rw [if_neg hn]
    by_cases hroom : mulSize 4 n > bboLength parentObj ∨ po > subSize (bboLength parentObj) (mulSize 4 n)
    · rw [if_pos hroom]
      exact h.confined
    rw [if_neg hroom]
    by_cases h4 : addSize (subSize (bboBuffer parentObj) F.userData) po % 4 ≠ 0
    · rw [if_pos h4]
      exact h.confined
    rw [if_neg h4]
    have hmax := hB.max
    obtain ⟨hrstart, hrstop⟩ := h.confined.regions r hr
    rw [Region.stop] at hrstop
    have hmul : mulSize 4 n = 4 * n := mulSize_eq (by omega)
    rw [hmul, hlen] at hroom
    push Not at hroom
    rw [subSize_eq hroom.1 (by omega)] at hroom
    obtain ⟨hroom₁, hroom₂⟩ := hroom
    have hadd : addSize po (mulSize 4 n) = po + 4 * n := by rw [hmul, addSize_eq (by omega)]
    have hbase : addSize (subSize (bboBuffer parentObj) F.userData) po = r.start + po := by
      have hu := hB.user
      have hsub : subSize (addSize F.userData r.start) F.userData = r.start := by
        simp only [addSize, subSize]
        omega
      rw [hbuf, hsub, addSize_eq (by omega)]
    have hslot (m : Nat) (hm : m ≤ n) : ∀ f ∈ fdSlots x.offset p (r.start + po) m, f.kind = .fda ∧
        f.object = x.offset ∧ f.parent = p ∧ r.start + po ≤ f.offset ∧ f.stop ≤ r.start + (po + 4 * n) := by
      intro f hf
      obtain ⟨j, hj, rfl⟩ := List.mem_map.mp hf
      have hj := List.mem_range.mp hj
      have hoff : addSize (r.start + po) (mulSize j 4) = r.start + po + j * 4 := by
        rw [mulSize_eq (by omega), addSize_eq (by omega)]
      simp only [Fixup.stop, hoff, reduceCtorEq, if_false, true_and]
      omega
    have hpair (m : Nat) (hm : m ≤ n) : (fdSlots x.offset p (r.start + po) m).Pairwise
        fun f g => f.stop ≤ g.offset ∨ g.stop ≤ f.offset := by
      refine List.pairwise_map.mpr ((List.pairwise_lt_range).imp_of_mem fun {i j} hi hj hij => .inl ?_)
      have hi := List.mem_range.mp hi
      have hj := List.mem_range.mp hj
      simp only [Fixup.stop, reduceCtorEq, if_false]
      rw [mulSize_eq (by omega), mulSize_eq (by omega), addSize_eq (by omega), addSize_eq (by omega)]
      omega
    have hconf (m : Nat) (hm : m ≤ n) : Confined F mem₀
        { st.toVars with fixups := st.fixups ++ fdSlots x.offset p (r.start + po) m } := by
      refine h.confined.addFixups hr (fun f hf => ?_) (hpair m hm) fun f hf g hg => ?_
      · obtain ⟨hfk, -, hfp, hfoff, hfstop⟩ := hslot m hm f hf
        exact ⟨by rw [hfk]; nofun, hro.trans hfp.symm, by omega, by rw [Region.stop]; omega⟩
      · obtain ⟨-, -, hfp, hfoff, hfstop⟩ := hslot m hm f hf
        exact h.confined.disjoint_allowed hB h.chained ha hr hro hfoff (by rw [Region.stop]; omega) hg
    rw [hbase, hadd]
    obtain ⟨m, hm, out, ⟨heq, rfl⟩ | heq⟩ := translateFds_eq (F := F) (H := H) (i := xs.length) st x.offset p
      (r.start + po) n
    · rw [heq]
      have hst := h.chained.toStored.next h.mem_accepted h.offset
        (fun _ => by rw [h.code, hk]; nofun) fun hk' => by rw [hk] at hk'; cases hk'
      have hl := h.chained.toLinked.mono fun z (hz : z ∈ xs) => (List.mem_append_left [x] hz :)
      subst hyo
      refine ⟨h.accepted, { hconf m le_rfl with }, { hst.addFixups _ _ _, hl.addFda (x := x) (by simp)
        (List.mem_append_left _ (List.mem_of_getElem? hy)) hyk ha h.chained.oneRegion
        (Nat.le_add_right po (4 * m))
        (fun f hf => ?_) (fun f hf r' hr' hro' => ?_) with }⟩
      · obtain ⟨hfk, hfo, hfp, -⟩ := hslot m le_rfl f hf
        exact ⟨hfk, hfo, hfp⟩
      · obtain rfl := h.chained.oneRegion r hr r' hr' (hro.trans hro'.symm)
        exact (hslot m le_rfl f hf).2.2.2.2
    · rw [heq]
      exact hconf m hm

/-- The pointer that `binder_fixup_parent` writes for the object at `o`. -/
structure PtrFixup (F : Frame) (mem₀ : Bytes) (s : Vars) (xs : List Accepted) (o : Nat) (bp : Bytes)
    (f : Fixup) : Prop where
  kind : f.kind = .ptr
  object : f.object = o
  index : bboParent bp < xs.length
  parent : f.parent = offsetAt F mem₀ (bboParent bp)
  home : ∃ y ∈ xs, f.parent = y.offset ∧ Allowed s y.offset (bboParentOffset bp) ∧
    ∃ r ∈ s.regions, r.object = y.offset ∧ f.offset = r.start + bboParentOffset bp ∧ f.stop ≤ r.stop

theorem fixupParent_cases (hB : Bounds F) (h : Current F mem₀ st.toVars xs x) (bp : Bytes) :
    fixupParent F xs.length x.offset bp st = .fail st ∨
      (hasParent bp = false ∧ fixupParent F xs.length x.offset bp st = .ok st) ∨
      (∃ f, PtrFixup F mem₀ st.toVars xs x.offset bp f ∧ fixupParent F xs.length x.offset bp st =
        .ok { st with mem := store 8 st.mem f.offset (bboBuffer bp), fixups := st.fixups ++ [f] }) := by
  rw [fixupParent]
  by_cases hpar : hasParent bp = true
  · rw [if_neg (by simp [hpar])]
    split
    · exact .inl rfl
    rename_i parentObj p hp
    obtain ⟨y, r, hy, hyk, hyo, hp₀, hr, hro, hbuf, hlen, res, hres, hallowed⟩ :=
      h.parent hB (bboParentOffset bp) hp
    rw [hres]
    cases res with
    | false => exact .inl rfl
    | true =>
      dsimp only
      split
      · exact .inl rfl
      rename_i hroom
      split
      · refine .inr (.inr ⟨⟨.ptr, x.offset, p,
          subSize (addSize (bboParentOffset bp) (bboBuffer parentObj)) F.userData⟩,
          ⟨rfl, rfl, (List.getElem?_eq_some_iff.mp hy).1, hp₀, y, List.mem_of_getElem? hy,
          hyo.symm, hyo ▸ hallowed rfl, r, hr, hro.trans hyo.symm, ?_, ?_⟩, rfl⟩)
        all_goals
          have hmax := hB.max
          obtain ⟨-, hrstop⟩ := h.confined.regions r hr
          rw [Region.stop] at hrstop
          rw [hlen] at hroom
          push Not at hroom
          rw [subSize_eq hroom.1 (by omega)] at hroom
          have hoff : subSize (addSize (bboParentOffset bp) (bboBuffer parentObj)) F.userData =
              r.start + bboParentOffset bp := by
            rw [hbuf, subSize_addSize hB.user (by omega), Nat.add_comm]
        · exact hoff
        · rw [hoff, Fixup.stop, if_pos rfl, Region.stop]
          dsimp only
          omega
      · exact .inl rfl
  · rw [if_pos (by simpa using hpar)]
    exact .inr (.inl ⟨by simpa using hpar, rfl⟩)

/-- The object with its new address, as it is in the buffer. -/
theorem load_putPtr {n : Nat} (hk : k + n ≤ 40) :
    load n (fun i => blit 40 mem o obj (o + i)) k = load n obj k := by
  rw [load_from, load_blit hk]

theorem copyUser_below {c : Copy} {n : Nat} (ha : a < o) : (copyUser F c mem o n).2 a = mem a := by
  rw [copyUser]
  split
  · exact blit_out (.inl ha)
  · rfl

/-- The buffer of the current object is copied, as far as that goes. -/
theorem Current.addRegion (hB : Bounds F) (h : Current F mem₀ s xs x) (hk : x.kind = .ptr)
    (hfresh : ∀ r ∈ s.regions, r.object ≠ x.offset) {length : Nat} (hlen : length ≤ F.sgEnd - s.sgBufOffset)
    {mem : Bytes} (hmem : ∀ a < F.sgStart, mem a = s.mem a) :
    Confined F mem₀ { s with mem, regions := s.regions ++ [⟨x.offset, s.sgBufOffset, length⟩] } ∧
      Current F mem₀ { s with
        mem
        regions := s.regions ++ [⟨x.offset, s.sgBufOffset, length⟩]
        sgBufOffset := addSize s.sgBufOffset (alignPtr length) } xs x := by
  have hmax := hB.max
  have hend8 := hB.end8
  have hsg := h.chained.sgEnd
  have hsg0 := h.chained.sgStart
  have hsg8 := h.chained.sg8
  obtain ⟨hal₁, hal₂, hal₃⟩ := alignPtr_le (x := length) (by omega)
  have hadd : addSize s.sgBufOffset (alignPtr length) = s.sgBufOffset + alignPtr length := addSize_eq (by omega)
  have hin : F.sgStart ≤ (⟨x.offset, s.sgBufOffset, length⟩ : Region).start ∧
      (⟨x.offset, s.sgBufOffset, length⟩ : Region).stop ≤ F.sgEnd := by
    simp only [Region.stop]
    omega
  have hkeep : Keeps F [x] s.mem mem := keeps_sg hmem
  obtain ⟨hc, hch⟩ := h.setMem hB hkeep
  have hconf (sg : Nat) := hc.addRegion hin h.chained.sgMin sg
  have hst := hch.toStored.addRegion (r := ⟨x.offset, s.sgBufOffset, length⟩) h.mem_accepted hk rfl hfresh
    (Nat.le_add_right _ (alignPtr length)) (Nat.add_le_add_left hal₁ _) (by dsimp only; omega)
    (by dsimp only; omega)
  have hl := hch.toLinked.addRegion (r := ⟨x.offset, s.sgBufOffset, length⟩) (fun y hy => (h.lt hy).ne)
    (s.sgBufOffset + alignPtr length)
  rw [hadd]
  refine ⟨{ hconf s.sgBufOffset with }, hconf _, { hst, hl with }, h.accepted, h.offset, h.listed, ?_⟩
  rw [← h.code]
  congr 1
  refine load_congr fun a _ h₂ => hmem a ?_
  have := (h.confined.accepted x h.mem_accepted).2
  obtain ⟨hd, ho, hs, -⟩ := hB
  simp only [Accepted.stop, hk, ObjKind.size] at this
  omega

/-- The end of a buffer object, with its region `r` copied. -/
theorem putPtr_good (hB : Bounds F) (h : Current F mem₀ s xs x) (hk : x.kind = .ptr) {bp : Bytes} {r : Region}
    (hr : r ∈ s.regions) (hro : r.object = x.offset) (hbuf : bboBuffer bp = addSize F.userData r.start)
    (hlen : bboLength bp = r.length) {mem : Bytes} (hmem : ∀ a < F.sgStart, mem a = s.mem a)
    (hnew : hasParent bp = false ∧ new = [] ∨ ∃ f, PtrFixup F mem₀ s xs x.offset bp f ∧ new = [f]) :
    Confined F mem₀ { s with mem, fixups := s.fixups ++ new } ∧
      Confined F mem₀ { s with mem := blit 40 mem x.offset bp, fixups := s.fixups ++ new } ∧
      Chained F mem₀ { s with
        mem := blit 40 mem x.offset bp
        fixups := s.fixups ++ new
        lastFixupObjOff := x.offset
        lastFixupMinOff := 0 } (xs ++ [x]) := by
  have hadd : Confined F mem₀ { s with fixups := s.fixups ++ new } := by
    rcases hnew with ⟨-, rfl⟩ | ⟨f, hf, rfl⟩
    · simpa using h.confined
    · obtain ⟨y, hy, hfp, ha, r', hr', hro', hoff, hstop⟩ := hf.home
      refine h.confined.addFixups hr' (fun g hg => ?_) (List.pairwise_singleton ..) fun g hg g' hg' => ?_
      · rw [List.mem_singleton.mp hg]
        exact ⟨by rw [hf.kind]; nofun, hro'.trans hfp.symm, by omega, hstop⟩
      · rw [List.mem_singleton.mp hg]
        exact h.confined.disjoint_allowed hB h.chained ha hr' hro' hoff.ge hstop hg'
  have hkeep : Keeps F [x] s.mem (blit 40 mem x.offset bp) :=
    (keeps_sg hmem).trans (keeps_blit (by rw [hk]; exact le_rfl) bp)
  have hkeepAll : Keeps F s.accepted s.mem (blit 40 mem x.offset bp) := fun a ha hx =>
    hkeep a ha fun y hy => hx y (by
    rw [List.mem_singleton.mp hy]
    exact h.mem_accepted)
  have hst : Stored F mem₀ { s with
      mem := blit 40 mem x.offset bp, fixups := s.fixups ++ new, lastFixupObjOff := x.offset,
      lastFixupMinOff := 0 } xs :=
    (h.setMem hB hkeep).2.toStored.addFixups new x.offset 0
  refine ⟨hadd.setMem hB (keeps_sg hmem), hadd.setMem hB hkeepAll, { hst.next h.mem_accepted h.offset
    (fun hne => absurd hk hne) (fun _ => ?_), h.chained.toLinked.addPtr hk (fun y hy => h.lt hy) ?_
      h.chained.oneRegion with }⟩
  · refine ⟨⟨r, hr, hro, ?_, ?_⟩, fun hpar => ?_⟩
    · rw [load_blit (by omega)]
      exact hbuf
    · rw [load_blit (by omega)]
      exact hlen
    · rw [load_blit (by omega), load_blit (by omega)]
      rcases hnew with ⟨hno, -⟩ | ⟨f, hf, rfl⟩
      · rw [hasParent, bboFlags, load_putPtr (by omega)] at hpar
        rw [hasParent, bboFlags, hpar] at hno
        cases hno
      · obtain ⟨y, -, hfp, -, r', hr', hro', hoff, hstop⟩ := hf.home
        exact ⟨hf.index, f, by simp, hf.kind, hf.object, hf.parent, r', hr', hro'.trans hfp.symm, hoff, hstop⟩
  · rcases hnew with ⟨-, rfl⟩ | ⟨f, hf, rfl⟩
    · exact .inl rfl
    · obtain ⟨y, hy, hfp, ha, r', hr', hro', hoff, hstop⟩ := hf.home
      exact .inr ⟨f, y, hy, _, r', hr', rfl, hf.kind, hf.object, hfp, ha, hro', hoff⟩

theorem ptrStep_good (hB : Bounds F) (h : Current F mem₀ st.toVars xs x) (hk : x.kind = .ptr)
    (hfresh : ∀ r ∈ st.regions, r.object ≠ x.offset) (bp : Bytes) :
    Good F mem₀ (xs ++ [x]) (ptrStep F H xs.length x.offset bp st) := by
  have hsg := h.chained.sgEnd
  have hsg0 := h.chained.sgStart
  have hmax := hB.max
  rw [ptrStep]
  by_cases hlen : bboLength bp > subSize F.sgEnd st.sgBufOffset
  · rw [if_pos hlen]
    exact h.confined
  rw [if_neg hlen]
  rw [subSize_eq hsg (by omega), Nat.not_lt] at hlen
  generalize hcopy : copyUser F (H.copy xs.length) st.mem st.sgBufOffset (bboLength bp) = res
  obtain ⟨left, mem⟩ := res
  have hmem : ∀ a < F.sgStart, mem a = st.mem a := fun a ha => by
    have hbelow : (copyUser F (H.copy xs.length) st.mem st.sgBufOffset (bboLength bp)).2 a = st.mem a :=
      copyUser_below (ha.trans_le hsg0)
    rwa [hcopy] at hbelow
  obtain ⟨hfail, hcur⟩ := h.addRegion hB hk hfresh hlen hmem
  dsimp only
  by_cases hleft : left ≠ 0
  · rw [if_pos hleft]
    exact hfail
  rw [if_neg hleft]
  generalize hs₂ : ({ st with
    mem
    regions := st.regions ++ [⟨x.offset, st.sgBufOffset, bboLength bp⟩]
    sgBufOffset := addSize st.sgBufOffset (alignPtr (bboLength bp)) } : State σ) = s₂
  have hcur : Current F mem₀ s₂.toVars xs x := by rw [← hs₂]; exact hcur
  have hr : ⟨x.offset, st.sgBufOffset, bboLength bp⟩ ∈ s₂.regions := by rw [← hs₂]; simp
  have hbuf : bboBuffer (store 8 bp 8 (addSize F.userData st.sgBufOffset)) = addSize F.userData st.sgBufOffset := by
    rw [bboBuffer, load_store]
    exact Nat.mod_eq_of_lt (Nat.mod_lt _ (by decide))
  have hlen' : bboLength (store 8 bp 8 (addSize F.userData st.sgBufOffset)) = bboLength bp := by
    rw [bboLength, bboLength, load_store_out (by omega)]
  have done {mem : Bytes} {new : List Fixup} (hmem : ∀ a < F.sgStart, mem a = s₂.mem a)
      (hnew : hasParent (store 8 bp 8 (addSize F.userData st.sgBufOffset)) = false ∧ new = [] ∨
        ∃ f, PtrFixup F mem₀ s₂.toVars xs x.offset (store 8 bp 8
        (addSize F.userData st.sgBufOffset)) f ∧ new = [f]) :
      ∀ {res : Res (State σ)}, (∀ s, putObject F { s₂ with mem, fixups := s₂.fixups ++ new } x.offset .ptr
            (store 8 bp 8 (addSize F.userData st.sgBufOffset)) = .ok s →
          res = .ok { s with lastFixupObjOff := x.offset, lastFixupMinOff := 0 }) →
        (∀ s, putObject F { s₂ with mem, fixups := s₂.fixups ++ new } x.offset .ptr
          (store 8 bp 8 (addSize F.userData st.sgBufOffset)) = .fail s → res = .fail s) →
        Good F mem₀ (xs ++ [x]) res := by
    intro res hok hfail
    obtain ⟨h₁, h₂, h₃⟩ := putPtr_good hB hcur hk hr rfl hbuf hlen' hmem hnew
    by_cases hcheck : checkBuffer F x.offset ObjKind.ptr.size = true
    · rw [hok _ (if_pos hcheck)]
      exact ⟨hcur.accepted, { h₂ with }, h₃⟩
    · rw [hfail _ (if_neg hcheck)]
      exact h₁
  rcases fixupParent_cases hB hcur (store 8 bp 8 (addSize F.userData st.sgBufOffset))
    with heq | ⟨hno, heq⟩ | ⟨f, hf, heq⟩
  · rw [heq]
    exact hcur.confined
  · rw [heq]
    refine @done s₂.mem [] (fun _ _ => rfl) (.inl ⟨hno, rfl⟩) _ (fun s hs => ?_) fun s hs => ?_
    all_goals
      rw [List.append_nil] at hs
      change putObject F s₂ _ _ _ = _ at hs
      simp only [hs]
  · rw [heq]
    refine @done (store 8 s₂.mem f.offset (bboBuffer (store 8 bp 8 (addSize F.userData st.sgBufOffset)))) [f]
      (fun a ha => store_out (.inl ?_)) (.inr ⟨f, hf, rfl⟩) _ (fun s hs => ?_) fun s hs => ?_
    · obtain ⟨y, -, -, -, r, hr, -, hoff, -⟩ := hf.home
      have := (hcur.confined.regions r hr).1
      omega
    all_goals
      dsimp only
      rw [hs]

/-! ## The loop -/

/-- The object is accepted. -/
theorem accept_current (hB : Bounds F) (hc : Confined F mem₀ s) (hch : Chained F mem₀ s s.accepted)
    (hn : F.offStart + 8 * (s.accepted.length + 1) ≤ F.offEnd)
    (hoff : copyFrom F s.mem 8 (F.offStart + 8 * s.accepted.length) = some o)
    (hobj : getObject F s.mem o = some (kind, obj)) (hmin : s.offMin ≤ o) :
    Current F mem₀ { s with offMin := o + kind.size, accepted := s.accepted ++ [⟨o, kind⟩] } s.accepted
        ⟨o, kind⟩ ∧ ∀ r ∈ s.regions, r.object ≠ o := by
  obtain ⟨h4, hsize, hcode, -⟩ := getObject_some hB hobj
  have hbefore (y : Accepted) (hy : y ∈ s.accepted) : y.stop ≤ o := (hch.offMin y hy).trans hmin
  refine ⟨⟨hc.accept (x := ⟨o, kind⟩) hbefore h4 hsize _, ?_, rfl, copyFrom_offset hc hn hoff, hn,
    hcode⟩, fun r hr hro => ?_⟩
  · refine { hch with
      sub := fun y hy => List.mem_append_left _ hy, ptr := fun j y hy hk => ?_,
      owner := fun r hr => ?_, offMin := fun y hy => ?_ }
    · exact (hch.ptr j y hy hk).mono (fun _ _ _ => rfl) (fun _ hr => hr) fun _ hf => hf
    · obtain ⟨y, hy, hrest⟩ := hch.owner r hr
      exact ⟨y, List.mem_append_left _ hy, hrest⟩
    · rcases List.mem_append.mp hy with hy | hy
      · exact (hbefore y hy).trans (Nat.le_add_right _ _)
      · rw [List.mem_singleton.mp hy]
        exact le_rfl
  · obtain ⟨y, hy, -, hyo⟩ := hch.owner r hr
    have := hbefore y hy
    have := y.kind.size_pos
    simp only [Accepted.stop] at *
    omega

theorem objectStep_good (hB : Bounds F) (hc : Confined F mem₀ st.toVars)
    (hch : Chained F mem₀ st.toVars st.accepted) (hn : F.offStart + 8 * (st.accepted.length + 1) ≤ F.offEnd) :
    ∃ x, Good F mem₀ (st.accepted ++ [x]) (objectStep F H st.accepted.length st) := by
  rw [objectStep]
  split
  · exact ⟨⟨0, .fd⟩, hc⟩
  rename_i o hoff
  split
  · exact ⟨⟨0, .fd⟩, hc⟩
  rename_i kind obj hobj
  by_cases hmin : o < st.offMin
  · rw [if_pos hmin]
    exact ⟨⟨0, .fd⟩, hc⟩
  rw [if_neg hmin]
  obtain ⟨hcur, hfresh⟩ := accept_current hB hc hch hn hoff hobj (Nat.not_lt.mp hmin)
  generalize hst : ({ st with offMin := o + kind.size, accepted := st.accepted ++ [⟨o, kind⟩] } : State σ) = st'
  have hcur : Current F mem₀ st'.toVars st.accepted ⟨o, kind⟩ := by
    rw [← hst]
    exact hcur
  have hfresh : ∀ r ∈ st'.regions, r.object ≠ o := by
    rw [← hst]
    exact hfresh
  refine ⟨⟨o, kind⟩, ?_⟩
  cases kind with
  | flat type =>
    have hgood := flatStep_good (H := H) (i := st.accepted.length) hB hcur rfl obj
    exact hgood
  | fd =>
    obtain ⟨-, -, hcode, rfl⟩ := getObject_some hB hobj
    have hgood := fdStep_good (H := H) (i := st.accepted.length) hB hcur rfl (by rw [load_from]; exact hcode)
    exact hgood
  | fda =>
    have hgood := fdaStep_good (H := H) hB hcur rfl obj
    exact hgood
  | ptr =>
    have hgood := ptrStep_good (H := H) hB hcur rfl hfresh obj
    exact hgood

theorem start_good (hB : Bounds F) (out : σ) : Confined F mem₀ (startState F mem₀ out).toVars ∧
    Chained F mem₀ (startState F mem₀ out).toVars [] := by
  refine ⟨⟨nofun, .nil, nofun, .nil, nofun, nofun, .nil, fun _ _ _ => rfl, fun _ _ _ => rfl⟩,
    ⟨⟨nofun, nofun, nofun, nofun, nofun, nofun, nofun, nofun, le_rfl, hB.sg, hB.start8⟩,
      nofun, nofun, nofun, fun h => absurd rfl h, fun h => absurd rfl h⟩⟩

theorem objects_good (hB : Bounds F) (mem₀ : Bytes) (out : σ) {n : Nat} (hn : F.offStart + 8 * n ≤ F.offEnd) :
    ∃ xs, xs.length = n ∧ Good F mem₀ xs (objects F H (startState F mem₀ out) n) := by
  induction n with
  | zero => exact ⟨[], rfl, rfl, start_good hB out⟩
  | succ n ih =>
    obtain ⟨xs, rfl, hgood⟩ := ih (by omega)
    rw [objects]
    cases hres : objects F H (startState F mem₀ out) xs.length with
    | ok s =>
      rw [hres] at hgood
      obtain ⟨rfl, hc, hch⟩ := hgood
      obtain ⟨x, hx⟩ := objectStep_good (H := H) hB hc hch hn
      exact ⟨_, by simp, hx⟩
    | fail s =>
      rw [hres] at hgood
      exact ⟨xs ++ [⟨0, .fd⟩], by simp, hgood⟩
    | stuck =>
      rw [hres] at hgood
      exact hgood.elim

/-- The state at some point of the loop. -/
def Res.state? {α : Type} : Res α → Option α
  | .ok a => some a
  | .fail a => some a
  | .stuck => none

/-- For every request, every content of the buffer, and whatever happens outside: at any point of the
loop, also where it fails, the accepted objects are 4-aligned and follow each other in the data; the
copied buffers follow each other between the end of the offsets and that plus `buffers_size`; every
pointer and every descriptor of an array lies in the copy of its parent, and no two of them overlap. So
no fixup changes the data, the offsets or what has been fixed up before. -/
theorem objects_confined (tr : Request) (u : UInt64) (bufferSize : Nat) (H : Hooks σ) (mem : Bytes) (out : σ)
    (hvalid : tr.valid bufferSize = true) (n : Nat) (hn : 8 * n ≤ tr.offsetsSize.toNat) :
    ∃ s, (objects (tr.frame u bufferSize) H (startState (tr.frame u bufferSize) mem out) n).state? = some s ∧
      let F := tr.frame u bufferSize
      (∀ x ∈ s.accepted, x.offset % 4 = 0 ∧ x.stop ≤ tr.dataSize.toNat) ∧
      (s.accepted.Pairwise fun x y => x.offset < y.offset ∧ x.stop ≤ y.offset) ∧
      (∀ r ∈ s.regions, F.sgStart ≤ r.start ∧ r.stop ≤ F.sgStart + tr.buffersSize.toNat) ∧
      (s.regions.Pairwise fun r r' => r.stop ≤ r'.start) ∧
      (∀ f ∈ s.fixups, f.kind ≠ .fd → F.offEnd ≤ f.offset ∧
        ∃ r ∈ s.regions, r.object = f.parent ∧ r.start ≤ f.offset ∧ f.stop ≤ r.stop) ∧
      (s.fixups.Pairwise fun f g => f.stop ≤ g.offset ∨ g.stop ≤ f.offset) ∧
      (∀ a, F.offStart ≤ a → a < F.offEnd → s.mem a = mem a) ∧
      (∀ a < tr.dataSize.toNat, (∀ x ∈ s.accepted, a < x.offset ∨ x.stop ≤ a) → s.mem a = mem a) := by
  obtain ⟨hB, hoff, hsg⟩ := Request.bounds (u := u) hvalid
  obtain ⟨xs, -, hgood⟩ := objects_good (H := H) hB mem out (n := n) (by omega)
  have hconf : ∃ s, (objects (tr.frame u bufferSize) H (startState (tr.frame u bufferSize) mem out) n).state? =
      some s ∧ Confined (tr.frame u bufferSize) mem s.toVars := by
    cases hres : objects (tr.frame u bufferSize) H (startState (tr.frame u bufferSize) mem out) n with
    | ok s =>
      rw [hres] at hgood
      exact ⟨s, rfl, hgood.2.1⟩
    | fail s =>
      rw [hres] at hgood
      exact ⟨s, rfl, hgood⟩
    | stuck =>
      rw [hres] at hgood
      exact hgood.elim
  obtain ⟨s, hs, hc⟩ := hconf
  have hinc : s.accepted.Pairwise fun x y => x.offset < y.offset ∧ x.stop ≤ y.offset := by
    refine hc.increasing.imp fun {x y} h => ⟨?_, h⟩
    have := x.kind.size_pos
    rw [Accepted.stop] at h
    omega
  refine ⟨s, hs, hc.accepted, hinc, fun r hr => ?_, hc.apart, fun f hf hk => ?_, hc.disjoint, hc.offsets,
    hc.data⟩
  · rw [← hsg]
    exact hc.regions r hr
  · obtain ⟨r, hr, hro, hstart, hstop⟩ := hc.inBuffer f hf hk
    exact ⟨(hB.extra.trans (hc.regions r hr).1).trans hstart, r, hr, hro, hstart, hstop⟩

/-- A buffer object of 8 bytes at offset 8, and one of 8 bytes at 48 whose address is in the first. -/
def twoBuffers : Bytes :=
  store 8 (store 8 (store 8 (store 4 (store 4 (store 8 (store 4 (fun _ => 0) 8 ObjKind.ptr.code) 24 8) 48
    ObjKind.ptr.code) 52 1) 64 8) 88 8) 96 48

def twoRequest : Request := ⟨88, 16, 16⟩

/-- Nothing outside fails. -/
def okHooks : Hooks Unit := ⟨fun _ o _ => (some o, ()), fun _ _ _ _ => (true, ()), fun _ => ⟨fun _ => 0, 8⟩⟩

theorem twoBuffers_confined : ∃ s, (objects (twoRequest.frame 4096 120) okHooks
    (startState (twoRequest.frame 4096 120) twoBuffers ()) 2).state? = some s ∧
      s.fixups = [⟨.ptr, 48, 8, 104⟩] ∧ s.regions = [⟨8, 104, 8⟩, ⟨48, 112, 8⟩] ∧
      s.regions.Pairwise fun r r' => r.stop ≤ r'.start := by
  have hrun : (objects (twoRequest.frame 4096 120) okHooks
    (startState (twoRequest.frame 4096 120) twoBuffers ())
      2).state?.map (fun s => (s.fixups, s.regions)) =
        some ([⟨.ptr, 48, 8, 104⟩], [⟨8, 104, 8⟩, ⟨48, 112, 8⟩]) := by decide +kernel
  obtain ⟨s, hs, -, -, -, hapart, -⟩ := objects_confined twoRequest 4096 120 okHooks twoBuffers ()
    (by decide) 2 (by decide)
  rw [hs, Option.map_some, Option.some.injEq, Prod.mk.injEq] at hrun
  exact ⟨s, hs, hrun.1, hrun.2, hapart⟩

end Redroid.Binder.Scatter
