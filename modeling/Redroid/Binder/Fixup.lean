import Redroid.Binder.ScatterInv

/-!
# What `binder_validate_fixup` accepts

Its rule: a fixup is allowed in the last buffer object that was verified or fixed up in, or in one of
its parents, after the last fixup there. `FixupAllowed` states it over the bytes of the sender.

* `Stepped`: what one object leaves in the buffer and in the variables of the loop.
* `Traced`: the bytes that `binder_validate_fixup` reads are those of the sender, and the variables
  name the last buffer object.
* `validateFixup_iff`: the function follows its rule unless that object is at offset 0.
-/

namespace Redroid.Binder.Scatter

open Redroid.Bytes

section Rule

variable (F : Frame) (mem₀ : Bytes)

/-- The last buffer object that was verified or fixed up in, with the end of the last fixup in it. -/
def lastBuffer (xs : List Accepted) : Option (Nat × Nat) :=
  xs.foldl (fun last x =>
    let obj : Bytes := fun i => mem₀ (x.offset + i)
    match x.kind with
    | .ptr => some (x.offset, 0)
    | .fda => some (offsetAt F mem₀ (fdaParent obj), fdaParentOffset obj + 4 * fdaNumFds obj)
    | _ => last) none

/-- The parent of the buffer object at `o`, with the end of the pointer to the object in it. -/
def parentOf (o : Nat) : Option (Nat × Nat) :=
  let obj : Bytes := fun i => mem₀ (o + i)
  if hasParent obj then some (offsetAt F mem₀ (bboParent obj), bboParentOffset obj + 8) else none

/-- From the object `o`, where `m` is the least offset of a fixup, up to the object `p`, where it is
`b`. -/
inductive Ancestor : Nat → Nat → Nat → Nat → Prop
  | here {o m : Nat} : Ancestor o m o m
  | up {o m p m' q b : Nat} : parentOf F mem₀ o = some (p, m') → Ancestor p m' q b → Ancestor o m q b

/-- With the objects `xs` accepted, a fixup at `fixupOffset` in the object at `p` is allowed. -/
def FixupAllowed (xs : List Accepted) (p fixupOffset : Nat) : Prop :=
  (∃ x ∈ xs, x.kind = .ptr) ∧ ∃ o m b, lastBuffer F mem₀ xs = some (o, m) ∧
    Ancestor F mem₀ o m p b ∧ b ≤ fixupOffset

end Rule

variable {σ : Type} {F : Frame} {H : Hooks σ} {mem₀ mem : Bytes} {s s' : Vars} {st st' : State σ}
  {xs : List Accepted} {x : Accepted} {i n o p : Nat} {obj : Bytes} {kind : ObjKind}

/-! ## One object -/

/-- The variables after the object `x`. -/
def NextLast (F : Frame) (s s' : Vars) (n : Nat) (x : Accepted) : Prop :=
  match x.kind with
  | .ptr => s'.lastFixupObjOff = x.offset ∧ s'.lastFixupMinOff = 0
  | .fda => ∃ parentObj, validatePtr F s.mem (load 8 s.mem (x.offset + 16)) n =
        some (parentObj, s'.lastFixupObjOff) ∧
      s'.lastFixupMinOff = addSize (load 8 s.mem (x.offset + 24))
        (mulSize 4 (load 8 s.mem (x.offset + 8))) ∧
      load 8 s.mem (x.offset + 8) < (2 ^ 64 - 1) / 4 ∧
      mulSize 4 (load 8 s.mem (x.offset + 8)) ≤ bboLength parentObj ∧
      load 8 s.mem (x.offset + 24) ≤
        subSize (bboLength parentObj) (mulSize 4 (load 8 s.mem (x.offset + 8)))
  | _ => s'.lastFixupObjOff = s.lastFixupObjOff ∧ s'.lastFixupMinOff = s.lastFixupMinOff

/-- What the object `x`, the one after the `n` before, leaves. -/
structure Stepped (F : Frame) (s s' : Vars) (n : Nat) (x : Accepted) : Prop where
  object : getObject F s.mem x.offset = some (x.kind, fun i => s.mem (x.offset + i))
  min : s.offMin ≤ x.offset
  accepted : s'.accepted = s.accepted ++ [x]
  others : Keeps F [x] s.mem s'.mem
  self : x.kind = .ptr → ∀ i < 40, i < 8 ∨ 16 ≤ i → s'.mem (x.offset + i) = s.mem (x.offset + i)
  last : NextLast F s s' n x

/-- An object is stored, or its place is refused. -/
theorem putObject_cases (st : State σ) (o : Nat) (kind : ObjKind) (obj : Bytes) :
    putObject F st o kind obj = .fail st ∨
      putObject F st o kind obj = .ok { st with mem := blit kind.size st.mem o obj } := by
  rw [putObject]
  split
  · exact .inr rfl
  · exact .inl rfl

theorem putObject_ok (h : putObject F st o kind obj = .ok st') :
    st' = { st with mem := blit kind.size st.mem o obj } := by
  rcases putObject_cases st o kind obj with hput | hput <;> rw [hput] at h <;> cases h
  rfl

theorem putObject_fail (h : putObject F st o kind obj = .fail st') : st' = st := by
  rcases putObject_cases st o kind obj with hput | hput <;> rw [hput] at h <;> cases h
  rfl

theorem flatStep_ok {type : Refs.ObjType} (h : flatStep F H i o type obj st = .ok st') :
    ∃ obj', ∃ out, st' = { st with mem := blit 24 st.mem o obj', out } := by
  rw [flatStep] at h
  split at h
  · cases h
  · rename_i o' out _
    exact ⟨putFlat o' obj, out, putObject_ok h⟩

theorem fdStep_ok (h : fdStep F H i o obj st = .ok st') :
    ∃ obj' fixups, ∃ out, st' = { st with mem := blit 24 st.mem o obj', fixups, out } := by
  rw [fdStep] at h
  split at h
  · cases h
  · rename_i out _
    exact ⟨store 8 obj 8 0, _, out, putObject_ok h⟩

theorem fdaStep_ok (h : fdaStep F H i o obj st = .ok st') :
    ∃ parentObj p fixups out, validatePtr F st.mem (fdaParent obj) i = some (parentObj, p) ∧
      fdaNumFds obj < (2 ^ 64 - 1) / 4 ∧ mulSize 4 (fdaNumFds obj) ≤ bboLength parentObj ∧
      fdaParentOffset obj ≤ subSize (bboLength parentObj) (mulSize 4 (fdaNumFds obj)) ∧
      st' = { st with
        fixups, out, lastFixupObjOff := p
        lastFixupMinOff := addSize (fdaParentOffset obj) (mulSize 4 (fdaNumFds obj)) } := by
  rw [fdaStep] at h
  split at h
  · cases h
  rename_i parentObj p hp
  split at h
  · cases h
  · cases h
  split at h
  · rename_i s' hs'
    cases h
    rw [translateFdArray] at hs'
    split at hs'
    · cases hs'
    rename_i hnum
    split at hs'
    · cases hs'
    rename_i hroom
    split at hs'
    · cases hs'
    obtain ⟨m, -, out, ⟨heq, -⟩ | heq⟩ := translateFds_eq (F := F) (H := H) (i := i) st o p
      (addSize (subSize (bboBuffer parentObj) F.userData) (fdaParentOffset obj)) (fdaNumFds obj)
    · rw [heq] at hs'
      cases hs'
      push Not at hnum hroom
      exact ⟨parentObj, p, _, out, hp, hnum, hroom.1, hroom.2, rfl⟩
    · rw [heq] at hs'
      cases hs'
  · rename_i hne
    exact absurd h (hne st')

/-- A buffer object is stored with its new address, or the data and the offsets stay. -/
theorem ptrStep_cases (st : State σ) (obj : Bytes) (hB : Bounds F) (h : Current F mem₀ st.toVars xs x)
    (hk : x.kind = .ptr)
    (hfresh : ∀ r ∈ st.regions, r.object ≠ x.offset) : ∃ mem, (∀ a < F.sgStart, mem a = st.mem a) ∧
    ((∃ s', ptrStep F H xs.length x.offset obj st = .fail s' ∧ s'.mem = mem) ∨
      ∃ addr s', ptrStep F H xs.length x.offset obj st = .ok s' ∧
        s'.mem = blit 40 mem x.offset (store 8 obj 8 addr) ∧ s'.accepted = st.accepted ∧
        s'.lastFixupObjOff = x.offset ∧ s'.lastFixupMinOff = 0) := by
  have hsg := h.chained.sgEnd
  have hsg0 := h.chained.sgStart
  have hmax := hB.max
  rw [ptrStep]
  by_cases hlen : bboLength obj > subSize F.sgEnd st.sgBufOffset
  · rw [if_pos hlen]
    exact ⟨st.mem, fun _ _ => rfl, .inl ⟨_, rfl, rfl⟩⟩
  rw [if_neg hlen]
  rw [subSize_eq hsg (by omega), Nat.not_lt] at hlen
  generalize hcopy : copyUser F (H.copy xs.length) st.mem st.sgBufOffset (bboLength obj) = res
  obtain ⟨left, mem⟩ := res
  have hmem : ∀ a < F.sgStart, mem a = st.mem a := fun a ha => by
    have hbelow : (copyUser F (H.copy xs.length) st.mem st.sgBufOffset (bboLength obj)).2 a = st.mem a :=
      copyUser_below (ha.trans_le hsg0)
    rwa [hcopy] at hbelow
  obtain ⟨-, hcur⟩ := h.addRegion hB hk hfresh hlen hmem
  dsimp only
  by_cases hleft : left ≠ 0
  · rw [if_pos hleft]
    exact ⟨mem, hmem, .inl ⟨_, rfl, rfl⟩⟩
  rw [if_neg hleft]
  generalize hs₂ : ({ st with
    mem
    regions := st.regions ++ [⟨x.offset, st.sgBufOffset, bboLength obj⟩]
    sgBufOffset := addSize st.sgBufOffset (alignPtr (bboLength obj)) } : State σ) = s₂
  have hcur : Current F mem₀ s₂.toVars xs x := by rw [← hs₂]; exact hcur
  have hmem₂ : s₂.mem = mem := by rw [← hs₂]
  have hacc₂ : s₂.accepted = st.accepted := by rw [← hs₂]
  rcases fixupParent_cases hB hcur (store 8 obj 8 (addSize F.userData st.sgBufOffset)) with
    hfix | ⟨-, hfix⟩ | ⟨f, hf, hfix⟩
  · rw [hfix]
    exact ⟨mem, hmem, .inl ⟨_, rfl, hmem₂⟩⟩
  · rw [hfix]
    dsimp only
    rcases putObject_cases (F := F) s₂ x.offset .ptr (store 8 obj 8 (addSize F.userData st.sgBufOffset)) with
      hput | hput
    · rw [hput]
      exact ⟨mem, hmem, .inl ⟨_, rfl, hmem₂⟩⟩
    · rw [hput]
      exact ⟨s₂.mem, by rwa [hmem₂], .inr ⟨_, _, rfl, rfl, hacc₂, rfl, rfl⟩⟩
  · rw [hfix]
    dsimp only
    have hbelow : ∀ a < F.sgStart, store 8 s₂.mem f.offset
        (bboBuffer (store 8 obj 8 (addSize F.userData st.sgBufOffset))) a = st.mem a := fun a ha => by
      obtain ⟨y, -, -, -, r, hr, -, hoff, -⟩ := hf.home
      have := (hcur.confined.regions r hr).1
      rw [store_out (.inl (by omega)), hmem₂]
      exact hmem a ha
    rcases putObject_cases (F := F) { s₂ with
        mem := store 8 s₂.mem f.offset (bboBuffer (store 8 obj 8 (addSize F.userData st.sgBufOffset)))
        fixups := s₂.fixups ++ [f] } x.offset .ptr
        (store 8 obj 8 (addSize F.userData st.sgBufOffset)) with hput | hput
    · rw [hput]
      exact ⟨_, hbelow, .inl ⟨_, rfl, rfl⟩⟩
    · rw [hput]
      exact ⟨_, hbelow, .inr ⟨_, _, rfl, rfl, hacc₂, rfl, rfl⟩⟩

theorem objectStep_stepped (hB : Bounds F) (hc : Confined F mem₀ st.toVars)
    (hch : Chained F mem₀ st.toVars st.accepted)
    (hn : F.offStart + 8 * (st.accepted.length + 1) ≤ F.offEnd)
    (heq : objectStep F H st.accepted.length st = .ok st') :
    ∃ x, Stepped F st.toVars st'.toVars st.accepted.length x := by
  rw [objectStep] at heq
  split at heq
  · cases heq
  rename_i o hoff
  split at heq
  · cases heq
  rename_i kind obj hobj
  by_cases hmin : o < st.offMin
  · rw [if_pos hmin] at heq
    cases heq
  rw [if_neg hmin] at heq
  obtain ⟨hcur, hfresh⟩ := accept_current hB hc hch hn hoff hobj (Nat.not_lt.mp hmin)
  obtain ⟨-, -, -, rfl⟩ := getObject_some hB hobj
  refine ⟨⟨o, kind⟩, ?_⟩
  cases kind with
  | flat type =>
    obtain ⟨obj', out, rfl⟩ := flatStep_ok heq
    exact ⟨hobj, Nat.not_lt.mp hmin, rfl, keeps_blit (x := ⟨o, .flat type⟩) le_rfl obj',
      fun h => (by cases h), rfl, rfl⟩
  | fd =>
    obtain ⟨obj', fixups, out, rfl⟩ := fdStep_ok heq
    exact ⟨hobj, Nat.not_lt.mp hmin, rfl, keeps_blit (x := ⟨o, .fd⟩) le_rfl obj',
      fun h => (by cases h), rfl, rfl⟩
  | fda =>
    obtain ⟨parentObj, p, fixups, out, hp, hnum, hlen, hroom, rfl⟩ := fdaStep_ok heq
    simp only [fdaParent, fdaNumFds, fdaParentOffset, load_from] at hp hnum hlen hroom
    refine ⟨hobj, Nat.not_lt.mp hmin, rfl, fun _ _ _ => rfl, fun h => (by cases h), parentObj, hp, ?_, hnum,
      hlen, hroom⟩
    simp only [fdaNumFds, fdaParentOffset, load_from]
  | ptr =>
    obtain ⟨mem, hmem, ⟨s₁, hs₁, -⟩ | ⟨addr, s₁, hs₁, hst, hacc, hlast⟩⟩ :=
      ptrStep_cases (H := H) { st with offMin := o + _, accepted := st.accepted ++ [⟨o, .ptr⟩] }
        (fun i => st.mem (o + i)) hB hcur rfl hfresh
    · cases hs₁.symm.trans heq
    cases hs₁.symm.trans heq
    refine ⟨hobj, Nat.not_lt.mp hmin, hacc, ?_, fun _ i hi hout => ?_, hlast⟩
    · rw [hst]
      exact (keeps_sg hmem).trans (keeps_blit (x := ⟨o, .ptr⟩) le_rfl _)
    · rw [hst, blit, if_pos (by dsimp only; omega), Nat.add_sub_cancel_left]
      exact store_out (by omega)

/-! ## The objects before -/

/-- What the loop keeps of the objects of the sender: the type of each, and of a buffer object all but
`buffer`; and the variables name the last buffer object. -/
structure Traced (F : Frame) (mem₀ : Bytes) (s : Vars) : Prop where
  code : ∀ x ∈ s.accepted, ObjKind.ofCode (load 4 mem₀ x.offset) = some x.kind
  ptr : ∀ x ∈ s.accepted, x.kind = .ptr → ∀ i < 40, i < 8 ∨ 16 ≤ i →
    s.mem (x.offset + i) = mem₀ (x.offset + i)
  last : (∃ x ∈ s.accepted, x.kind = .ptr) →
    lastBuffer F mem₀ s.accepted = some (s.lastFixupObjOff, s.lastFixupMinOff) ∧
      ∃ y ∈ s.accepted, y.kind = .ptr ∧ y.offset = s.lastFixupObjOff

theorem lastBuffer_append : lastBuffer F mem₀ (xs ++ [x]) = match x.kind with
    | .ptr => some (x.offset, 0)
    | .fda => some (offsetAt F mem₀ (load 8 mem₀ (x.offset + 16)),
        load 8 mem₀ (x.offset + 24) + 4 * load 8 mem₀ (x.offset + 8))
    | _ => lastBuffer F mem₀ xs := by
  simp only [lastBuffer, List.foldl_append, List.foldl_cons, List.foldl_nil, fdaParent, fdaParentOffset,
    fdaNumFds, load_from]

/-- The bytes of an object before it is accepted are those of the sender. -/
theorem Stepped.fresh (h : Stepped F s s' n x) (hB : Bounds F) (hc : Confined F mem₀ s)
    (hch : Chained F mem₀ s s.accepted) {a : Nat} (hlo : x.offset ≤ a) (hhi : a < x.stop) :
    s.mem a = mem₀ a := by
  obtain ⟨-, hsize, -⟩ := getObject_some hB h.object
  refine hc.data a (Nat.lt_of_lt_of_le hhi hsize) fun y hy => .inr ?_
  exact ((hch.offMin y hy).trans h.min).trans hlo

/-- The variables after a `BINDER_TYPE_FDA` object. -/
theorem Stepped.fda (h : Stepped F s s' s.accepted.length x) (hB : Bounds F) (hc : Confined F mem₀ s)
    (hch : Chained F mem₀ s s.accepted) (hn : F.offStart + 8 * s.accepted.length ≤ F.offEnd)
    (hk : x.kind = .fda) :
    s'.lastFixupObjOff = offsetAt F mem₀ (load 8 mem₀ (x.offset + 16)) ∧
      s'.lastFixupMinOff = load 8 mem₀ (x.offset + 24) + 4 * load 8 mem₀ (x.offset + 8) ∧
      ∃ y ∈ s.accepted, y.kind = .ptr ∧ y.offset = s'.lastFixupObjOff := by
  have hlast := h.last
  have hload : ∀ k, k + 8 ≤ 32 → load 8 s.mem (x.offset + k) = load 8 mem₀ (x.offset + k) := fun k hk32 =>
    load_congr fun a h₁ h₂ => h.fresh hB hc hch (by omega) (by
      simp only [Accepted.stop, hk, ObjKind.size]
      omega)
  simp only [NextLast, hk] at hlast
  obtain ⟨parentObj, hp, hmin, hnum, hlen, hroom⟩ := hlast
  rw [hload 16 (by omega)] at hp
  rw [hload 8 (by omega)] at hmin hnum hlen hroom
  rw [hload 24 (by omega)] at hmin hroom
  obtain ⟨y, hy, hyk, hyo, hoff, rfl⟩ := validatePtr_some hB hc hch hn hp
  obtain ⟨r, hr, hro, -, hrlen⟩ := (hch.ptr _ y hy hyk).region
  have hstop := (hc.regions r hr).2
  have hmax := hB.max
  rw [hyo] at hrlen
  rw [bboLength, load_from, hrlen] at hlen hroom
  rw [Region.stop] at hstop
  rw [mulSize_eq (by omega)] at hmin hlen hroom
  rw [subSize_eq hlen (by omega)] at hroom
  refine ⟨hoff, ?_, y, List.mem_of_getElem? hy, hyk, hyo⟩
  rw [hmin, addSize_eq (by omega)]

/-- The variables name the last buffer object after each object. -/
theorem Traced.nextLast (ht : Traced F mem₀ s) (h : Stepped F s s' s.accepted.length x) (hB : Bounds F)
    (hc : Confined F mem₀ s) (hch : Chained F mem₀ s s.accepted)
    (hn : F.offStart + 8 * s.accepted.length ≤ F.offEnd) (hptr : ∃ y ∈ s'.accepted, y.kind = .ptr) :
    lastBuffer F mem₀ s'.accepted = some (s'.lastFixupObjOff, s'.lastFixupMinOff) ∧
      ∃ y ∈ s'.accepted, y.kind = .ptr ∧ y.offset = s'.lastFixupObjOff := by
  have hlast := h.last
  have same (hk : x.kind ≠ .ptr) (hbuf : lastBuffer F mem₀ (s.accepted ++ [x]) = lastBuffer F mem₀ s.accepted)
      (hvars : s'.lastFixupObjOff = s.lastFixupObjOff ∧ s'.lastFixupMinOff = s.lastFixupMinOff) :
      lastBuffer F mem₀ (s.accepted ++ [x]) = some (s'.lastFixupObjOff, s'.lastFixupMinOff) ∧
        ∃ y ∈ s.accepted ++ [x], y.kind = .ptr ∧ y.offset = s'.lastFixupObjOff := by
    have hold : ∃ y ∈ s.accepted, y.kind = .ptr := by
      obtain ⟨y, hy, hyk⟩ := hptr
      rw [h.accepted] at hy
      rcases List.mem_append.mp hy with hy | hy
      · exact ⟨y, hy, hyk⟩
      · rw [List.mem_singleton.mp hy] at hyk
        exact absurd hyk hk
    obtain ⟨heq, y, hy, hrest⟩ := ht.last hold
    rw [hbuf, hvars.1, hvars.2]
    exact ⟨heq, y, List.mem_append_left _ hy, hrest⟩
  rw [h.accepted]
  cases hk : x.kind with
  | flat type =>
    simp only [NextLast, hk] at hlast
    exact same (by simp [hk]) (by rw [lastBuffer_append, hk]) hlast
  | fd =>
    simp only [NextLast, hk] at hlast
    exact same (by simp [hk]) (by rw [lastBuffer_append, hk]) hlast
  | fda =>
    obtain ⟨hobj, hmin, y, hy, hrest⟩ := h.fda hB hc hch hn hk
    refine ⟨?_, y, List.mem_append_left _ hy, hrest⟩
    rw [lastBuffer_append, hk, hobj, hmin]
  | ptr =>
    simp only [NextLast, hk] at hlast
    refine ⟨?_, x, by simp, hk, hlast.1.symm⟩
    rw [lastBuffer_append, hk, hlast.1, hlast.2]

theorem Traced.step (ht : Traced F mem₀ s) (h : Stepped F s s' s.accepted.length x) (hB : Bounds F)
    (hc : Confined F mem₀ s) (hch : Chained F mem₀ s s.accepted)
    (hn : F.offStart + 8 * s.accepted.length ≤ F.offEnd) : Traced F mem₀ s' := by
  obtain ⟨-, hsize, hcode, -⟩ := getObject_some hB h.object
  have hpos : 4 ≤ x.kind.size := by cases x.kind <;> simp [ObjKind.size]
  have hold : ∀ y ∈ s.accepted, ∀ a, y.offset ≤ a → a < y.stop → s'.mem a = s.mem a := by
    intro y hy a h₁ h₂
    have hbefore := (hch.offMin y hy).trans h.min
    have hdata := (hc.accepted y hy).2
    obtain ⟨hd, ho, hs, -⟩ := hB
    refine h.others a (by omega) fun z hz => .inl ?_
    rw [List.mem_singleton.mp hz]
    omega
  refine ⟨fun y hy => ?_, fun y hy hyk i hi hout => ?_, fun hptr => ?_⟩
  · rw [h.accepted] at hy
    rcases List.mem_append.mp hy with hy | hy
    · exact ht.code y hy
    · rw [List.mem_singleton.mp hy, ← hcode]
      congr 1
      refine load_congr fun a h₁ h₂ => (h.fresh hB hc hch h₁ ?_).symm
      rw [Accepted.stop]
      omega
  · rw [h.accepted] at hy
    rcases List.mem_append.mp hy with hy | hy
    · rw [hold y hy _ (by omega) (by simp only [Accepted.stop, hyk, ObjKind.size]; omega)]
      exact ht.ptr y hy hyk i hi hout
    · obtain rfl := List.mem_singleton.mp hy
      rw [h.self hyk i hi hout]
      exact h.fresh hB hc hch (by omega) (by simp only [Accepted.stop, hyk, ObjKind.size]; omega)
  · exact ht.nextLast h hB hc hch hn hptr

theorem objects_traced (hB : Bounds F) (mem₀ : Bytes) (out : σ) {n : Nat}
    (hn : F.offStart + 8 * n ≤ F.offEnd) (heq : objects F H (startState F mem₀ out) n = .ok st) :
    st.accepted.length = n ∧ Confined F mem₀ st.toVars ∧ Chained F mem₀ st.toVars st.accepted ∧
      Traced F mem₀ st.toVars := by
  induction n generalizing st with
  | zero =>
    cases heq
    exact ⟨rfl, (start_good hB out).1, (start_good hB out).2, nofun, nofun, nofun⟩
  | succ n ih =>
    rw [objects] at heq
    split at heq
    · rename_i s hs
      obtain ⟨rfl, hc, hch, ht⟩ := ih (by omega) hs
      obtain ⟨x, hx⟩ := objectStep_stepped hB hc hch hn heq
      obtain ⟨y, hgood⟩ := objectStep_good (H := H) hB hc hch hn
      rw [heq] at hgood
      obtain ⟨hacc, hc', hch'⟩ := hgood
      rw [← hacc] at hch'
      exact ⟨by simp [hacc], hc', hch', ht.step hx hB hc hch (by omega)⟩
    · rename_i hne
      exact absurd heq (hne st)

/-! ## The way up, on the bytes of the sender -/

section Up

variable (hB : Bounds F) (hfit : F.sgEnd ≤ F.bufferSize) (h8 : F.offStart % 8 = 0) (hc : Confined F mem₀ s)
  (hch : Chained F mem₀ s s.accepted) (ht : Traced F mem₀ s)
  (hn : F.offStart + 8 * s.accepted.length ≤ F.offEnd) (hmem : ∀ a < F.sgStart, mem a = s.mem a)

include hB hc ht hmem in
/-- A field of a buffer object, but `buffer`. -/
theorem load_field {y : Accepted} (hy : y ∈ s.accepted) (hk : y.kind = .ptr) {k n : Nat}
    (hin : k + n ≤ 40) (hout : k + n ≤ 8 ∨ 16 ≤ k) :
    load n mem (y.offset + k) = load n mem₀ (y.offset + k) := by
  refine load_congr fun a h₁ h₂ => ?_
  have hstop := (hc.accepted y hy).2
  simp only [Accepted.stop, hk, ObjKind.size] at hstop
  obtain ⟨hd, ho, hs, -⟩ := hB
  rw [hmem a (by omega)]
  have := ht.ptr y hy hk (a - y.offset) (by omega) (by omega)
  rwa [Nat.add_sub_cancel' (by omega)] at this

include hB hfit hc ht hmem in
/-- An accepted buffer object is found again. -/
theorem getObject_ptr {y : Accepted} (hy : y ∈ s.accepted) (hk : y.kind = .ptr) :
    getObject F mem y.offset = some (.ptr, fun i => mem (y.offset + i)) := by
  obtain ⟨h4, hstop⟩ := hc.accepted y hy
  simp only [Accepted.stop, hk, ObjKind.size] at hstop
  obtain ⟨hd, ho, hs, he, hm, -⟩ := id hB
  have hcode : ObjKind.ofCode (load 4 mem y.offset) = some .ptr := by
    have hload := load_field hB hc ht hmem hy hk (k := 0) (n := 4) (by omega) (by omega)
    rw [Nat.add_zero] at hload
    rw [hload, ht.code y hy, hk]
  have hsub : subSize F.dataSize y.offset = F.dataSize - y.offset := subSize_eq (by omega) (by omega)
  have hsub' : subSize F.dataSize 40 = F.dataSize - 40 := subSize_eq (by omega) (by omega)
  have hread : min sizeofObject (subSize F.dataSize y.offset) = 40 := by
    rw [hsub, sizeofObject]
    omega
  simp only [getObject, hread, hcode, ObjKind.size, hsub', checkBuffer]
  rw [if_neg, if_pos (by omega)]
  simp only [not_or, Bool.not_eq_false, Bool.and_eq_true, decide_eq_true_eq, beq_iff_eq]
  omega

include hB hfit h8 hc hmem in
/-- An entry of the offsets is read again. -/
theorem copyFrom_entry {k : Nat} (ho : o = offsetAt F mem₀ k) (hk : F.offStart + 8 * (k + 1) ≤ F.offEnd) :
    copyFrom F mem 8 (addSize F.offStart (mulSize 8 k)) = some o := by
  obtain ⟨-, -, hs, he, -⟩ := id hB
  have hload : load 8 mem (F.offStart + 8 * k) = offsetAt F mem₀ k := load_congr fun a h₁ h₂ =>
    (hmem a (by omega)).trans (hc.offsets a (by omega) (by omega))
  have hcheck : checkBuffer F (F.offStart + 8 * k) 8 = true := by
    simp only [checkBuffer, Bool.and_eq_true, decide_eq_true_eq, beq_iff_eq]
    omega
  rw [index_eq hB hk, copyFrom, if_pos hcheck, hload, ho]

include hB hc hch ht in
/-- The parent of an accepted buffer object is one before it. -/
theorem parentOf_some {y : Accepted} {j m : Nat} (hy : s.accepted[j]? = some y) (hk : y.kind = .ptr)
    (hp : parentOf F mem₀ y.offset = some (p, m)) :
    hasParent (fun i => mem₀ (y.offset + i)) = true ∧ m = load 8 mem₀ (y.offset + 32) + 8 ∧ m < 2 ^ 64 ∧
      ∃ k z, k = load 8 mem₀ (y.offset + 24) ∧ k < j ∧ s.accepted[k]? = some z ∧ z.kind = .ptr ∧
        z.offset = p ∧ p < y.offset := by
  have hym := List.mem_of_getElem? hy
  have hload {k n : Nat} (hin : k + n ≤ 40) (hout : k + n ≤ 8 ∨ 16 ≤ k) :=
    load_field hB hc ht (fun _ _ => rfl) hym hk hin hout
  simp only [parentOf] at hp
  split at hp
  · rename_i hpar
    cases hp
    have hpar' : hasParent (fun i => s.mem (y.offset + i)) = true := by
      simp only [hasParent, bboFlags, load_from] at hpar ⊢
      rwa [hload (k := 4) (n := 4) (by omega) (by omega)]
    obtain ⟨hlt, f, hf, hfk, hfo, hfp, r, hr, hro, hoff, hstop⟩ := (hch.ptr j y hy hk).parent hpar'
    rw [hload (by omega) (by omega)] at hlt hfp
    rw [hload (by omega) (by omega)] at hoff
    have hjl : j < s.accepted.length := (List.getElem?_eq_some_iff.mp hy).1
    have hz := List.getElem?_eq_getElem (l := s.accepted) (i := load 8 mem₀ (y.offset + 24)) (by omega)
    have hzoff := hch.offset _ _ hz
    obtain ⟨z', hz', hzk, hzo⟩ := hch.owner r hr
    have hzz := hc.unique (List.mem_of_getElem? hz) hz' (by rw [hzoff, hzo, hro, hfp])
    have hrstop := (hc.regions r hr).2
    have hmax := hB.max
    have hup := hch.up f hf hfk
    simp only [Fixup.stop, hfk, if_true] at hstop
    simp only [bboParent, bboParentOffset, load_from]
    exact ⟨hpar, trivial, by omega, _, _, rfl, hlt, hz, hzz ▸ hzk, hzoff, by rw [← hfp, ← hfo]; exact hup⟩
  · cases hp

include hB hc hch ht in
/-- The way up goes to smaller offsets. -/
theorem Ancestor.le {o m b : Nat} (h : Ancestor F mem₀ o m p b)
    (ho : ∃ y ∈ s.accepted, y.kind = .ptr ∧ y.offset = o) : p ≤ o := by
  induction h with
  | here => exact le_rfl
  | up hpar _ ih =>
    obtain ⟨y, hy, hk, rfl⟩ := ho
    obtain ⟨j, hy⟩ := List.mem_iff_getElem?.mp hy
    obtain ⟨-, -, -, k, z, -, -, hz, hzk, hzo, hlt⟩ := parentOf_some hB hc hch ht hy hk hpar
    exact (ih ⟨z, List.mem_of_getElem? hz, hzk, hzo⟩).trans hlt.le

include hB hc hch ht in
/-- Each object is passed once. -/
theorem Ancestor.self {y : Accepted} {m b : Nat} (hy : y ∈ s.accepted) (hk : y.kind = .ptr)
    (h : Ancestor F mem₀ y.offset m y.offset b) : b = m := by
  cases h with
  | here => rfl
  | up hpar hrest =>
    obtain ⟨j, hy⟩ := List.mem_iff_getElem?.mp hy
    obtain ⟨-, -, -, k, z, -, -, hz, hzk, hzo, hlt⟩ := parentOf_some hB hc hch ht hy hk hpar
    have := hrest.le hB hc hch ht ⟨z, List.mem_of_getElem? hz, hzk, hzo⟩
    omega

include hB hfit h8 hc hch ht hn hmem in
/-- `binder_validate_fixup` follows the parents of the sender. -/
theorem walk_iff (target fixupOffset fuel j m : Nat) {y : Accepted} (hy : s.accepted[j]? = some y)
    (hk : y.kind = .ptr) (hj : j < fuel) :
    ∃ res, walk F mem target fixupOffset fuel y.offset m = some res ∧
      (res = true ↔ ∃ b, Ancestor F mem₀ y.offset m target b ∧ b ≤ fixupOffset) := by
  induction fuel generalizing j m y with
  | zero => omega
  | succ fuel ih =>
    have hym := List.mem_of_getElem? hy
    rw [walk]
    by_cases htarget : y.offset = target
    · subst htarget
      rw [if_pos rfl]
      refine ⟨_, rfl, ?_⟩
      rw [decide_eq_true_eq]
      constructor
      · exact fun hle => ⟨m, .here, hle⟩
      · rintro ⟨b, hb, hle⟩
        rwa [← hb.self hB hc hch ht hym hk]
    rw [if_neg htarget, getObject_ptr hB hfit hc ht hmem hym hk]
    dsimp only
    have hload {k n : Nat} (hin : k + n ≤ 40) (hout : k + n ≤ 8 ∨ 16 ≤ k) :=
      load_field hB hc ht hmem hym hk hin hout
    have hflags : hasParent (fun i => mem (y.offset + i)) = hasParent (fun i => mem₀ (y.offset + i)) := by
      simp only [hasParent, bboFlags, load_from]
      rw [hload (by omega) (by omega)]
    rw [hflags]
    cases hpar : hasParent (fun i => mem₀ (y.offset + i)) with
    | false =>
      refine ⟨false, by simp, fun h => (by cases h), ?_⟩
      rintro ⟨b, hb, -⟩
      cases hb with
      | here => exact absurd rfl htarget
      | up hp _ => simp [parentOf, hpar] at hp
    | true =>
      have hp : parentOf F mem₀ y.offset = some (offsetAt F mem₀ (load 8 mem₀ (y.offset + 24)),
          load 8 mem₀ (y.offset + 32) + 8) := by
        simp only [parentOf, hpar, if_true, bboParent, bboParentOffset, load_from]
      obtain ⟨-, -, hlt, k, z, rfl, hkj, hz, hzk, hzo, -⟩ := parentOf_some hB hc hch ht hy hk hp
      have hjl : j < s.accepted.length := (List.getElem?_eq_some_iff.mp hy).1
      have hnext : copyFrom F mem 8 (addSize F.offStart (mulSize 8 (load 8 mem₀ (y.offset + 24)))) =
          some z.offset := copyFrom_entry hB hfit h8 hc hmem (hch.offset _ _ hz) (by omega)
      simp only [bboParent, bboParentOffset, load_from]
      rw [hload (k := 24) (n := 8) (by omega) (by omega), hload (k := 32) (n := 8) (by omega) (by omega),
        hnext, addSize_eq hlt]
      obtain ⟨res, hres, hiff⟩ := ih _ (load 8 mem₀ (y.offset + 32) + 8) hz hzk (by omega)
      refine ⟨res, by simpa using hres, hiff.trans ⟨?_, ?_⟩⟩
      · rintro ⟨b, hb, hle⟩
        exact ⟨b, .up (hzo ▸ hp) hb, hle⟩
      · rintro ⟨b, hb, hle⟩
        cases hb with
        | here => exact absurd rfl htarget
        | up hp' hb =>
          rw [hp] at hp'
          cases hp'
          exact ⟨b, hzo ▸ hb, hle⟩

end Up

/-! ## The function -/

/-- The parts of a request are inside the buffer. -/
theorem Request.fits {tr : Request} {u : UInt64} {bufferSize : Nat} (h : tr.valid bufferSize = true) :
    (tr.frame u bufferSize).sgEnd ≤ bufferSize ∧ (tr.frame u bufferSize).offStart % 8 = 0 := by
  have hd := tr.dataSize.toNat_lt
  have ho := tr.offsetsSize.toNat_lt
  have he := tr.buffersSize.toNat_lt
  simp only [Request.valid, Bool.and_eq_true, beq_iff_eq] at h
  obtain ⟨⟨hr, ho8⟩, he8⟩ := h
  simp only [Request.frame]
  generalize tr.dataSize.toNat = d at *
  generalize tr.offsetsSize.toNat = o at *
  generalize tr.buffersSize.toNat = e at *
  split at hr
  · rename_i size hreq
    simp only [requestSize] at hreq
    split at hreq
    · cases hreq
    rename_i h₁
    split at hreq
    · cases hreq
    rename_i h₂
    cases hreq
    have hsize := of_decide_eq_true hr
    simp only [alignPtr, addSize, sizeofPtr] at h₁ h₂ hsize ⊢
    omega
  · cases hr

/-- **`binder_validate_fixup` follows its rule unless the last buffer object is at offset 0** of the
data and the fixup is in that object, after the last one: then it is not allowed, although the rule
allows it. For every request, between any two objects and, with the buffer of the next object copied
behind the offsets, at every call. -/
theorem validateFixup_iff (tr : Request) (u : UInt64) (bufferSize : Nat) (H : Hooks σ) (mem₀ : Bytes)
    (out : σ) (hvalid : tr.valid bufferSize = true) (n : Nat) (hn : 8 * n ≤ tr.offsetsSize.toNat)
    (hrun : objects (tr.frame u bufferSize) H (startState (tr.frame u bufferSize) mem₀ out) n = .ok st)
    (mem : Bytes) (hmem : ∀ a < (tr.frame u bufferSize).sgStart, mem a = st.mem a) {x : Accepted}
    (hx : x ∈ st.accepted) (hk : x.kind = .ptr) (fixupOffset : Nat) :
    ∃ res, validateFixup (tr.frame u bufferSize) mem n x.offset fixupOffset st.lastFixupObjOff
        st.lastFixupMinOff = some res ∧
      ((res = true ↔ FixupAllowed (tr.frame u bufferSize) mem₀ st.accepted x.offset fixupOffset) ↔
        ¬ (st.lastFixupObjOff = 0 ∧ x.offset = 0 ∧ st.lastFixupMinOff ≤ fixupOffset)) := by
  obtain ⟨hB, hoff, hsg⟩ := Request.bounds (u := u) hvalid
  obtain ⟨hfit, h8⟩ : (tr.frame u bufferSize).sgEnd ≤ (tr.frame u bufferSize).bufferSize ∧
      (tr.frame u bufferSize).offStart % 8 = 0 := Request.fits hvalid
  generalize tr.frame u bufferSize = F at *
  obtain ⟨rfl, hc, hch, ht⟩ := objects_traced hB mem₀ out (by omega) hrun
  obtain ⟨hlast, y, hy, hyk, hyo⟩ := ht.last ⟨x, hx, hk⟩
  obtain ⟨j, hy⟩ := List.mem_iff_getElem?.mp hy
  have hallowed : FixupAllowed F mem₀ st.accepted x.offset fixupOffset ↔
      ∃ b, Ancestor F mem₀ y.offset st.lastFixupMinOff x.offset b ∧ b ≤ fixupOffset := by
    rw [FixupAllowed, hlast, hyo]
    constructor
    · rintro ⟨-, o, m, b, heq, hb⟩
      cases heq
      exact ⟨b, hb⟩
    · rintro ⟨b, hb⟩
      exact ⟨⟨x, hx, hk⟩, _, _, b, rfl, hb⟩
  rw [validateFixup]
  by_cases hzero : st.lastFixupObjOff = 0
  · rw [if_pos hzero]
    refine ⟨false, rfl, ?_⟩
    have hym := List.mem_of_getElem? hy
    rw [hallowed]
    constructor
    · rintro hiff ⟨-, hx0, hle⟩
      have hsame : x.offset = y.offset := by omega
      rw [hsame] at hiff
      exact absurd (hiff.mpr ⟨_, .here, hle⟩) (by decide)
    · intro hnot
      refine ⟨fun h => (by cases h), ?_⟩
      rintro ⟨b, hb, hle⟩
      have hx0 := hb.le hB hc hch ht ⟨y, hym, hyk, rfl⟩
      have hsame : x.offset = y.offset := by omega
      rw [hsame] at hb
      have hself := hb.self hB hc hch ht hym hyk
      exact absurd ⟨hzero, by omega, by omega⟩ hnot
  · rw [if_neg hzero, ← hyo]
    obtain ⟨res, hres, hiff⟩ := walk_iff hB hfit h8 hc hch ht (by omega) hmem x.offset fixupOffset
      st.accepted.length j st.lastFixupMinOff hy hyk (List.getElem?_eq_some_iff.mp hy).1
    refine ⟨res, hres, ?_⟩
    rw [hallowed, hiff]
    refine iff_of_true Iff.rfl fun h => hzero ?_
    rw [← hyo]
    exact h.1

/-- The variables of a run that has not failed. -/
def Res.vars? : Res (State σ) → Option (List Accepted × Nat × Nat)
  | .ok s => some (s.accepted, s.lastFixupObjOff, s.lastFixupMinOff)
  | _ => none

theorem Res.of_vars {r : Res (State σ)} {v : List Accepted × Nat × Nat} (h : r.vars? = some v) :
    ∃ s, r = .ok s ∧ s.accepted = v.1 ∧ s.lastFixupObjOff = v.2.1 ∧ s.lastFixupMinOff = v.2.2 := by
  cases r with
  | ok s =>
    cases h
    exact ⟨s, rfl, rfl, rfl, rfl⟩
  | fail s => cases h
  | stuck => cases h

/-- After the first of the two buffers, at offset 8, the second one may be fixed up in it. -/
theorem validateFixup_twoBuffers : ∃ st, objects (twoRequest.frame 4096 120) okHooks
    (startState (twoRequest.frame 4096 120) twoBuffers ()) 1 = .ok st ∧
    ∃ res, validateFixup (twoRequest.frame 4096 120) st.mem 1 8 0 8 0 = some res ∧
      (res = true ↔ FixupAllowed (twoRequest.frame 4096 120) twoBuffers [⟨8, .ptr⟩] 8 0) := by
  have hvars : (objects (twoRequest.frame 4096 120) okHooks (startState (twoRequest.frame 4096 120)
      twoBuffers ()) 1).vars? = some ([⟨8, .ptr⟩], 8, 0) := by decide +kernel
  obtain ⟨st, hrun, hacc, hobj, hmin⟩ := Res.of_vars hvars
  obtain ⟨res, hres, hiff⟩ := validateFixup_iff twoRequest 4096 120 okHooks twoBuffers () (by decide) 1
    (by decide) hrun st.mem (fun _ _ => rfl) (x := ⟨8, .ptr⟩) (by rw [hacc]; exact List.mem_cons_self) rfl 0
  rw [hacc, hobj, hmin] at *
  exact ⟨st, hrun, res, hres, hiff.mpr nofun⟩

/-- A buffer object of 8 bytes at offset 0, and one of 8 bytes at 40 whose address is in the first. -/
def zeroBuffers : Bytes :=
  store 8 (store 8 (store 4 (store 4 (store 8 (store 4 (fun _ => 0) 0 ObjKind.ptr.code) 16 8) 40
    ObjKind.ptr.code) 44 1) 56 8) 88 40

def zeroRequest : Request := ⟨80, 16, 16⟩

/-- The first object is the last buffer object, but the second one may not be fixed up in it, and the
transaction fails. -/
theorem validateFixup_zero : ∃ st, objects (zeroRequest.frame 4096 112) okHooks
    (startState (zeroRequest.frame 4096 112) zeroBuffers ()) 1 = .ok st ∧
    validateFixup (zeroRequest.frame 4096 112) st.mem 1 0 0 st.lastFixupObjOff st.lastFixupMinOff =
      some false ∧
    FixupAllowed (zeroRequest.frame 4096 112) zeroBuffers st.accepted 0 0 ∧
    (objects (zeroRequest.frame 4096 112) okHooks
      (startState (zeroRequest.frame 4096 112) zeroBuffers ()) 2).vars? = none := by
  have hvars : (objects (zeroRequest.frame 4096 112) okHooks (startState (zeroRequest.frame 4096 112)
      zeroBuffers ()) 1).vars? = some ([⟨0, .ptr⟩], 0, 0) := by decide +kernel
  obtain ⟨st, hrun, hacc, hobj, hmin⟩ := Res.of_vars hvars
  refine ⟨st, hrun, ?_, ?_, by decide +kernel⟩
  · rw [hobj]
    rfl
  · rw [hacc]
    exact ⟨⟨⟨0, .ptr⟩, List.mem_cons_self, rfl⟩, 0, 0, 0, rfl, .here, le_rfl⟩

end Redroid.Binder.Scatter
