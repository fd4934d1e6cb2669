import Redroid.Binder.Fixup

/-!
# The loop of `binder_validate_fixup` ends

It goes from a buffer object to its parent, which it reads again from the buffer.

* `walkParent`: one round; `Visits`: the objects that the loop reads.
* `walkParent_some`: the parent of an accepted buffer object is one with a smaller index.
* `objects_stays`: at any later point of the loop of `binder_transaction`, also where it fails, the
  offsets and the parents of the accepted buffer objects are what they were.
* `parentWalk_ends`: so the loop ends at every call.
-/

namespace Redroid.Binder.Scatter

open Redroid.Bytes

section Round

variable (F : Frame) (mem : Bytes)

/-- One round of the loop: the parent of the object at `o`, if the loop goes on. -/
def walkParent (o : Nat) : Option Nat :=
  match getObject F mem o with
  | none => none
  | some (kind, obj) =>
    if kind.size ≠ ObjKind.ptr.size || !hasParent obj then none
    else copyFrom F mem 8 (addSize F.offStart (mulSize 8 (bboParent obj)))

/-- The loop reads the object at this offset, with `last` as `last_obj_offset` and `target` as
`buffer_obj_offset`. -/
inductive Visits (target last : Nat) : Nat → Prop
  | first : last ≠ 0 → last ≠ target → Visits target last last
  | parent {o p : Nat} : Visits target last o → walkParent F mem o = some p → p ≠ target →
      Visits target last p

variable {F mem}

theorem walk_round (target fixupOffset fuel o min : Nat) :
    walk F mem target fixupOffset (fuel + 1) o min =
      if o = target then some (decide (min ≤ fixupOffset))
      else match walkParent F mem o with
        | none => some false
        | some p => walk F mem target fixupOffset fuel p (addSize (load 8 mem (o + 32)) 8) := by
  rw [walk, walkParent]
  split
  · rfl
  cases hobj : getObject F mem o with
  | none => rfl
  | some res =>
    obtain ⟨kind, obj⟩ := res
    obtain rfl : obj = fun i => mem (o + i) := by
      simp only [getObject] at hobj
      split at hobj
      · cases hobj
      split at hobj
      · cases hobj
      split at hobj
      · cases hobj
        rfl
      · cases hobj
    dsimp only
    split
    · rfl
    cases copyFrom F mem 8 (addSize F.offStart (mulSize 8 (bboParent fun i => mem (o + i)))) with
    | none => rfl
    | some p => simp only [bboParentOffset, load_from]

end Round

variable {σ : Type} {F : Frame} {H : Hooks σ} {mem₀ mem : Bytes} {s : Vars} {st st' : State σ}
  {x y : Accepted} {i n m o p j : Nat}

/-! ## Visited objects -/

section Visits

variable (hB : Bounds F) (hfit : F.sgEnd ≤ F.bufferSize) (h8 : F.offStart % 8 = 0) (hc : Confined F mem₀ s)
  (hch : Chained F mem₀ s s.accepted) (ht : Traced F mem₀ s)
  (hn : F.offStart + 8 * s.accepted.length ≤ F.offEnd) (hmem : ∀ a < F.sgStart, mem a = s.mem a)

include hB hfit h8 hc hch ht hn hmem in
/-- The parent of an accepted buffer object is one with a smaller index. -/
theorem walkParent_some (hy : s.accepted[j]? = some y) (hk : y.kind = .ptr)
    (hpar : hasParent (fun i => mem (y.offset + i)) = true) :
    ∃ k z, k = load 8 mem (y.offset + 24) ∧ k < j ∧ s.accepted[k]? = some z ∧ z.kind = .ptr ∧
      walkParent F mem y.offset = some z.offset := by
  have hym := List.mem_of_getElem? hy
  have hload {k n : Nat} (hin : k + n ≤ 40) (hout : k + n ≤ 8 ∨ 16 ≤ k) :=
    load_field hB hc ht hmem hym hk hin hout
  have hpar₀ : hasParent (fun i => mem₀ (y.offset + i)) = true := by
    simp only [hasParent, bboFlags, load_from] at hpar ⊢
    rwa [← hload (by omega) (by omega)]
  have hp : parentOf F mem₀ y.offset = some (offsetAt F mem₀ (load 8 mem₀ (y.offset + 24)),
      load 8 mem₀ (y.offset + 32) + 8) := by
    simp only [parentOf, hpar₀, if_true, bboParent, bboParentOffset, load_from]
  obtain ⟨-, -, -, k, z, rfl, hkj, hz, hzk, hzo, -⟩ := parentOf_some hB hc hch ht hy hk hp
  have hjl : j < s.accepted.length := (List.getElem?_eq_some_iff.mp hy).1
  refine ⟨_, z, (hload (by omega) (by omega)).symm, hkj, hz, hzk, ?_⟩
  rw [walkParent, getObject_ptr hB hfit hc ht hmem hym hk]
  dsimp only
  rw [if_neg (by simp [hpar])]
  simp only [bboParent, load_from]
  rw [hload (k := 24) (n := 8) (by omega) (by omega)]
  exact copyFrom_entry hB hfit h8 hc hmem (hch.offset _ _ hz) (by omega)

include hB hfit hc ht hmem in
/-- The loop ends at a buffer object without parent. -/
theorem walkParent_none (hy : y ∈ s.accepted) (hk : y.kind = .ptr)
    (hpar : hasParent (fun i => mem (y.offset + i)) = false) : walkParent F mem y.offset = none := by
  rw [walkParent, getObject_ptr hB hfit hc ht hmem hy hk]
  simp [hpar]

include hB hfit h8 hc hch ht hn hmem in
/-- From the `j`th object the loop has at most `j + 1` rounds. -/
theorem walk_ends (target fixupOffset min : Nat) (hy : s.accepted[j]? = some y) (hk : y.kind = .ptr) :
    ∃ res, ∀ fuel, j < fuel → walk F mem target fixupOffset fuel y.offset min = some res := by
  induction j using Nat.strong_induction_on generalizing y min with
  | _ j ih =>
  by_cases htarget : y.offset = target
  · refine ⟨decide (min ≤ fixupOffset), fun fuel hf => ?_⟩
    obtain ⟨fuel, rfl⟩ := Nat.exists_eq_add_one_of_ne_zero (Nat.ne_of_gt (Nat.zero_lt_of_lt hf))
    rw [walk_round, if_pos htarget]
  cases hpar : hasParent (fun i => mem (y.offset + i)) with
  | false =>
    have hnone := walkParent_none hB hfit hc ht hmem (List.mem_of_getElem? hy) hk hpar
    refine ⟨false, fun fuel hf => ?_⟩
    obtain ⟨fuel, rfl⟩ := Nat.exists_eq_add_one_of_ne_zero (Nat.ne_of_gt (Nat.zero_lt_of_lt hf))
    rw [walk_round, if_neg htarget, hnone]
  | true =>
    obtain ⟨k, z, -, hkj, hz, hzk, hsome⟩ := walkParent_some hB hfit h8 hc hch ht hn hmem hy hk hpar
    obtain ⟨res, hres⟩ := ih k hkj (addSize (load 8 mem (y.offset + 32)) 8) hz hzk
    refine ⟨res, fun fuel hf => ?_⟩
    obtain ⟨fuel, rfl⟩ := Nat.exists_eq_add_one_of_ne_zero (Nat.ne_of_gt (Nat.zero_lt_of_lt hf))
    rw [walk_round, if_neg htarget, hsome]
    exact hres fuel (by omega)

include hB hfit h8 hc hch ht hn hmem in
/-- The loop reads accepted buffer objects. -/
theorem Visits.accepted {target : Nat} (h : Visits F mem target s.lastFixupObjOff o) :
    ∃ (j : Nat) (x : Accepted), s.accepted[j]? = some x ∧ x.kind = .ptr ∧ x.offset = o := by
  induction h with
  | first hlast _ =>
    obtain ⟨x, hx, hk, ho⟩ := hch.last hlast
    obtain ⟨j, hx⟩ := List.mem_iff_getElem?.mp hx
    exact ⟨j, x, hx, hk, ho⟩
  | parent _ hp _ ih =>
    obtain ⟨j, x, hx, hk, rfl⟩ := ih
    cases hpar : hasParent (fun i => mem (x.offset + i)) with
    | false =>
      rw [walkParent_none hB hfit hc ht hmem (List.mem_of_getElem? hx) hk hpar] at hp
      cases hp
    | true =>
      obtain ⟨k, z, -, -, hz, hzk, hsome⟩ := walkParent_some hB hfit h8 hc hch ht hn hmem hx hk hpar
      rw [hsome] at hp
      cases hp
      exact ⟨k, z, hz, hzk, rfl⟩

end Visits

/-! ## The bytes of the accepted objects -/

theorem flatStep_fail {type : Refs.ObjType} {obj : Bytes} (h : flatStep F H i o type obj st = .fail st') :
    st'.mem = st.mem := by
  rw [flatStep] at h
  split at h
  · cases h
    rfl
  · rw [putObject_fail h]

theorem fdStep_fail {obj : Bytes} (h : fdStep F H i o obj st = .fail st') : st'.mem = st.mem := by
  rw [fdStep] at h
  split at h
  · cases h
    rfl
  · rw [putObject_fail h]

theorem fdaStep_fail {obj : Bytes} (h : fdaStep F H i o obj st = .fail st') : st'.mem = st.mem := by
  rw [fdaStep] at h
  split at h
  · cases h
    rfl
  rename_i parentObj p hp
  split at h
  · cases h
  · cases h
    rfl
  split at h
  · cases h
  rename_i hne
  rw [translateFdArray] at h
  split at h
  · cases h
    rfl
  split at h
  · cases h
    rfl
  split at h
  · cases h
    rfl
  obtain ⟨m, -, out, ⟨heq, -⟩ | heq⟩ := translateFds_eq (F := F) (H := H) (i := i) st o p
    (addSize (subSize (bboBuffer parentObj) F.userData) (fdaParentOffset obj)) (fdaNumFds obj)
  · rw [heq] at h
    cases h
  · rw [heq] at h
    cases h
    rfl

/-- A step that fails leaves the data and the offsets as they were. -/
theorem objectStep_fail (hB : Bounds F) (hc : Confined F mem₀ st.toVars)
    (hch : Chained F mem₀ st.toVars st.accepted)
    (hn : F.offStart + 8 * (st.accepted.length + 1) ≤ F.offEnd)
    (heq : objectStep F H st.accepted.length st = .fail st') : ∀ a < F.sgStart, st'.mem a = st.mem a := by
  rw [objectStep] at heq
  split at heq
  · cases heq
    exact fun _ _ => rfl
  rename_i o hoff
  split at heq
  · cases heq
    exact fun _ _ => rfl
  rename_i kind obj hobj
  by_cases hmin : o < st.offMin
  · rw [if_pos hmin] at heq
    cases heq
    exact fun _ _ => rfl
  rw [if_neg hmin] at heq
  obtain ⟨hcur, hfresh⟩ := accept_current hB hc hch hn hoff hobj (Nat.not_lt.mp hmin)
  cases kind with
  | flat type =>
    rw [flatStep_fail heq]
    exact fun _ _ => rfl
  | fd =>
    rw [fdStep_fail heq]
    exact fun _ _ => rfl
  | fda =>
    rw [fdaStep_fail heq]
    exact fun _ _ => rfl
  | ptr =>
    obtain ⟨mem, hmem, ⟨s₁, hs₁, rfl⟩ | ⟨_, s₁, hs₁, -⟩⟩ :=
      ptrStep_cases (H := H) { st with offMin := o + _, accepted := st.accepted ++ [⟨o, .ptr⟩] } obj hB hcur
        rfl hfresh
    · cases hs₁.symm.trans heq
      exact hmem
    · cases hs₁.symm.trans heq

theorem objects_not_stuck (hB : Bounds F) (mem₀ : Bytes) (out : σ) (hn : F.offStart + 8 * n ≤ F.offEnd) :
    objects F H (startState F mem₀ out) n ≠ .stuck := by
  obtain ⟨xs, -, hgood⟩ := objects_good (H := H) hB mem₀ out hn
  intro hstuck
  rw [hstuck] at hgood
  exact hgood

/-- After more objects: the loop goes on with the accepted objects, or has failed at one of them. -/
theorem objects_later (hB : Bounds F) (mem₀ : Bytes) (out : σ) (hnm : n ≤ m)
    (hm : F.offStart + 8 * m ≤ F.offEnd) (h : objects F H (startState F mem₀ out) n = .ok st) :
    ∃ k s₁, k ≤ m ∧ objects F H (startState F mem₀ out) k = .ok s₁ ∧ st.accepted ⊆ s₁.accepted ∧
      ∃ s', (objects F H (startState F mem₀ out) m).state? = some s' ∧
        (∀ a < F.sgStart, s'.mem a = s₁.mem a) ∧
        (objects F H (startState F mem₀ out) m = .ok s' → k = m ∧ s' = s₁) := by
  induction m, hnm using Nat.le_induction with
  | base => exact ⟨n, st, le_rfl, h, List.Subset.refl _, st, by rw [h]; rfl, fun _ _ => rfl, fun heq => by
      rw [h] at heq
      cases heq
      exact ⟨rfl, rfl⟩⟩
  | succ m hnm ih =>
    obtain ⟨k, s₁, hk, hs₁, hsub, s₂, hs₂, hmem, hok⟩ := ih (by omega)
    have hnot := objects_not_stuck (H := H) hB mem₀ out hm
    rw [objects] at hnot ⊢
    cases hres : objects F H (startState F mem₀ out) m with
    | stuck => exact absurd hres (objects_not_stuck hB mem₀ out (by omega))
    | fail s₃ =>
      rw [hres] at hs₂
      cases hs₂
      exact ⟨k, s₁, by omega, hs₁, hsub, s₂, rfl, hmem, fun h => by cases h⟩
    | ok s₃ =>
      rw [hres] at hs₂
      cases hs₂
      obtain ⟨rfl, rfl⟩ := hok hres
      obtain ⟨rfl, hc, hch, -⟩ := objects_traced hB mem₀ out (by omega) hs₁
      rw [hres] at hnot
      dsimp only at hnot ⊢
      cases hstep : objectStep F H s₂.accepted.length s₂ with
      | stuck => exact absurd hstep hnot
      | fail s' =>
        exact ⟨_, s₂, by omega, hs₁, hsub, s', rfl, objectStep_fail hB hc hch hm hstep, fun h => by cases h⟩
      | ok s' =>
        obtain ⟨x, hx⟩ := objectStep_stepped hB hc hch hm hstep
        refine ⟨s₂.accepted.length + 1, s', le_rfl, ?_, ?_, s', rfl, fun _ _ => rfl, fun heq => ?_⟩
        · rw [objects, hs₁]
          exact hstep
        · rw [hx.accepted]
          exact List.subset_append_of_subset_left _ hsub
        · cases heq
          exact ⟨rfl, rfl⟩

/-- The offsets, and all of an accepted buffer object but its address, stay as they are. -/
theorem objects_stays (hB : Bounds F) (mem₀ : Bytes) (out : σ) (hnm : n ≤ m)
    (hm : F.offStart + 8 * m ≤ F.offEnd) (h : objects F H (startState F mem₀ out) n = .ok st)
    (h' : (objects F H (startState F mem₀ out) m).state? = some st') :
    (∀ a, F.offStart ≤ a → a < F.offEnd → st'.mem a = st.mem a) ∧
      ∀ x ∈ st.accepted, x.kind = .ptr → ∀ i < 40, i < 8 ∨ 16 ≤ i →
        st'.mem (x.offset + i) = st.mem (x.offset + i) := by
  obtain ⟨k, s₁, hk, hs₁, hsub, s', hs', hmem, -⟩ := objects_later hB mem₀ out hnm hm h
  rw [h'] at hs'
  cases hs'
  obtain ⟨-, hc, -, ht⟩ := objects_traced hB mem₀ out (by omega) h
  obtain ⟨-, hc₁, -, ht₁⟩ := objects_traced hB mem₀ out (by omega) hs₁
  obtain ⟨hd, ho, hs, -⟩ := id hB
  refine ⟨fun a h₁ h₂ => ?_, fun x hx hk i hi hout => ?_⟩
  · rw [hmem a (by omega), hc₁.offsets a h₁ h₂, hc.offsets a h₁ h₂]
  · have hstop := (hc.accepted x hx).2
    simp only [Accepted.stop, hk, ObjKind.size] at hstop
    rw [hmem _ (by omega), ht₁.ptr x (hsub hx) hk i hi hout, ht.ptr x hx hk i hi hout]

/-! ## The result -/

/-- **The parent walk ends.** For every request, all data and offsets of the sender and whatever happens
outside, between any two objects and, with the buffer of the next object copied behind the offsets, at
every call of `binder_validate_fixup`: the loop ends, in at most as many rounds as there are accepted
objects; each object that it reads is an accepted buffer object, and the parent that it reads there is
the index of another one before it. At any later point, also where the loop of `binder_transaction`
fails, the offsets and the parents of these objects are the same. -/
theorem parentWalk_ends (tr : Request) (u : UInt64) (bufferSize : Nat) (H : Hooks σ) (mem₀ : Bytes) (out : σ)
    (hvalid : tr.valid bufferSize = true) (n : Nat) (hn : 8 * n ≤ tr.offsetsSize.toNat)
    (hrun : objects (tr.frame u bufferSize) H (startState (tr.frame u bufferSize) mem₀ out) n = .ok st) :
    let F := tr.frame u bufferSize
    (∀ mem, (∀ a < F.sgStart, mem a = st.mem a) → ∀ target,
      (∀ fixupOffset, ∃ res, ∀ fuel, n ≤ fuel → validateFixup F mem fuel target fixupOffset
        st.lastFixupObjOff st.lastFixupMinOff = some res) ∧
      ∀ o, Visits F mem target st.lastFixupObjOff o → ∃ (j : Nat) (x : Accepted),
        st.accepted[j]? = some x ∧ x.kind = .ptr ∧ x.offset = o ∧
          (hasParent (fun i => mem (o + i)) = true → ∃ z, load 8 mem (o + 24) < j ∧
            st.accepted[load 8 mem (o + 24)]? = some z ∧ z.kind = .ptr ∧
              walkParent F mem o = some z.offset)) ∧
    ∀ m, n ≤ m → 8 * m ≤ tr.offsetsSize.toNat → ∃ st',
      (objects F H (startState F mem₀ out) m).state? = some st' ∧
      (∀ a, F.offStart ≤ a → a < F.offEnd → st'.mem a = st.mem a) ∧
      ∀ x ∈ st.accepted, x.kind = .ptr → load 8 st'.mem (x.offset + 24) = load 8 st.mem (x.offset + 24) := by
  obtain ⟨hB, hoff, -⟩ := Request.bounds (u := u) hvalid
  obtain ⟨hfit, h8⟩ : (tr.frame u bufferSize).sgEnd ≤ (tr.frame u bufferSize).bufferSize ∧
      (tr.frame u bufferSize).offStart % 8 = 0 := Request.fits hvalid
  intro F
  have hF : tr.frame u bufferSize = F := rfl
  rw [hF] at hB hoff hfit h8 hrun
  obtain ⟨rfl, hc, hch, ht⟩ := objects_traced hB mem₀ out (by omega) hrun
  refine ⟨fun mem hmem target => ⟨fun fixupOffset => ?_, fun o hv => ?_⟩, fun m hnm hm => ?_⟩
  · by_cases hlast : st.lastFixupObjOff = 0
    · exact ⟨false, fun fuel _ => by rw [validateFixup, if_pos hlast]⟩
    · obtain ⟨y, hy, hk, ho⟩ := hch.last hlast
      obtain ⟨j, hy⟩ := List.mem_iff_getElem?.mp hy
      obtain ⟨res, hres⟩ := walk_ends hB hfit h8 hc hch ht (by omega) hmem target fixupOffset
        st.lastFixupMinOff hy hk
      refine ⟨res, fun fuel hf => ?_⟩
      rw [validateFixup, if_neg hlast, ← ho]
      exact hres fuel (Nat.lt_of_lt_of_le (List.getElem?_eq_some_iff.mp hy).1 hf)
  · obtain ⟨j, x, hx, hk, rfl⟩ := hv.accepted hB hfit h8 hc hch ht (by omega) hmem
    refine ⟨j, x, hx, hk, rfl, fun hpar => ?_⟩
    obtain ⟨_, z, rfl, hkj, hz, hzk, hsome⟩ :=
      walkParent_some hB hfit h8 hc hch ht (by omega) hmem hx hk hpar
    exact ⟨z, hkj, hz, hzk, hsome⟩
  · obtain ⟨-, -, -, -, -, st', hst', -⟩ := objects_later hB mem₀ out hnm (by omega) hrun
    obtain ⟨hoffs, hptr⟩ := objects_stays hB mem₀ out hnm (by omega) hrun hst'
    refine ⟨st', hst', hoffs, fun x hx hk => load_congr fun a h₁ h₂ => ?_⟩
    have := hptr x hx hk (a - x.offset) (by omega) (by omega)
    rwa [Nat.add_sub_cancel' (by omega)] at this

/-- After the two buffers, the loop reads one of them, and then the other. -/
theorem parentWalk_ends_twoBuffers : ∃ st, objects (twoRequest.frame 4096 120) okHooks
    (startState (twoRequest.frame 4096 120) twoBuffers ()) 2 = .ok st ∧
    (∃ res, validateFixup (twoRequest.frame 4096 120) st.mem 2 0 0 48 0 = some res) ∧
    ∀ o, Visits (twoRequest.frame 4096 120) st.mem 0 48 o → o = 8 ∨ o = 48 := by
  have hvars : (objects (twoRequest.frame 4096 120) okHooks (startState (twoRequest.frame 4096 120)
      twoBuffers ()) 2).vars? = some ([⟨8, .ptr⟩, ⟨48, .ptr⟩], 48, 0) := by decide +kernel
  obtain ⟨st, hrun, hacc, hobj, hmin⟩ := Res.of_vars hvars
  obtain ⟨hends, hvisits⟩ := (parentWalk_ends twoRequest 4096 120 okHooks twoBuffers () (by decide) 2
    (by decide) hrun).1 st.mem (fun _ _ => rfl) 0
  rw [hacc, hobj, hmin] at *
  obtain ⟨res, hres⟩ := hends 0
  refine ⟨st, hrun, ⟨res, hres 2 le_rfl⟩, fun o hv => ?_⟩
  obtain ⟨j, x, hx, -, rfl, -⟩ := hvisits o hv
  have hmem := List.mem_of_getElem? hx
  simp only [List.mem_cons, List.not_mem_nil, or_false] at hmem
  exact hmem.imp (congrArg Accepted.offset) (congrArg Accepted.offset)

end Redroid.Binder.Scatter
