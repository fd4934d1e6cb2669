import Redroid.Lib.Sys
import Redroid.Ashmem.Area

/-!
# Ashmem protection mask (`set_prot_mask`, `ashmem_mmap`)

`ASHMEM_SET_PROT_MASK` limits the rights of later mappings of an area: `ashmem_mmap` refuses a
mapping with a right outside the mask and clears the `VM_MAY*` bits of the rights outside it, so
that `mprotect` cannot add them.

* `compatVmFlagsClear`: the macro of `ashmem/compat.h`, whose body depends on the kernel version.
* `protSys v`: the runs of one area under kernel version `v`, with `ASHMEM_SET_SIZE`,
  `ASHMEM_SET_PROT_MASK`, `mmap` and `mprotect` steps. `lost` records the bits that the mask has
  lost, each mapping the mask at its creation.
* The mask is monotone and the mappings respect it (`Sound`) in every run that avoids the two
  kinds of steps that break it (`StepOk`): `protSys_sound`.
-/

namespace Redroid.Ashmem

/-- `READ_IMPLIES_EXEC`, a bit of `current->personality`. -/
def readImpliesExec : BitVec 32 := 0x0400000

/-- `compat_vm_flags_clear(vma, flags)`. -/
def compatVmFlagsClear (v : Nat) (vma : Vma) (flags : VmFlags) : Vma :=
  if kernelVersion 6 3 0 ≤ v then { vma with vmFlags := vma.vmFlags &&& ~~~flags } else vma

/-- `calc_vm_may_flags(prot)`. -/
def calcVmMayFlags (prot : BitVec 64) : VmFlags :=
  calcVmTrans prot protRead vmMayread ||| calcVmTrans prot protWrite vmMaywrite |||
    calcVmTrans prot protExec vmMayexec

/-- `ashmem_create_backing_file`: what `shmem_file_setup` is asked for. -/
def ashmemCreateBackingFile (asma : AshmemArea) (vmFlags : VmFlags) : BackingFile where
  name := if asma.name = "" then "dev/ashmem" else "dev/ashmem/" ++ asma.name
  size := asma.size
  flags := match asma.backing with
    | .memfd => vmNoreserve
    | .shmem => vmFlags

/-- The results of the kernel functions that `ashmem_mmap` calls: the error, if they fail. -/
structure MmapEnv where
  shmemFileSetup : Option Errno
  shmemZeroSetup : Option Errno
  deriving DecidableEq, Repr

/-- The last part of `ashmem_mmap`, with the backing file set. A shared mapping is set up by
`shmem_zero_setup`, which can fail. -/
def ashmemMmapFile (env : MmapEnv) (asma : AshmemArea) (vma : Vma) :
    Option Errno × AshmemArea × Vma :=
  if vma.vmFlags &&& vmShared ≠ 0 then (env.shmemZeroSetup, asma, vma) else (none, asma, vma)

/-- `ashmem_mmap`: the error if it fails, the area and the mapping. -/
def ashmemMmap (v : Nat) (env : MmapEnv) (asma : AshmemArea) (vma : Vma) :
    Option Errno × AshmemArea × Vma :=
  if asma.size = 0 then (some .EINVAL, asma, vma)
  else if vma.vmEnd - vma.vmStart > pageAlign asma.size then (some .EINVAL, asma, vma)
  else if (vma.vmFlags &&& ~~~calcVmProtBits asma.protMask) &&& calcVmProtBits protMaskAll ≠ 0 then
    (some .EPERM, asma, vma)
  else
    let vma := compatVmFlagsClear v vma (calcVmMayFlags (~~~asma.protMask))
    match asma.file with
    | some _ => ashmemMmapFile env asma vma
    | none =>
      match env.shmemFileSetup with
      | some e => (some e, asma, vma)
      | none =>
        ashmemMmapFile env { asma with file := some (ashmemCreateBackingFile asma vma.vmFlags) } vma

/-- `set_prot_mask`, by a task with the given `personality`. -/
def setProtMask (personality : BitVec 32) (asma : AshmemArea) (prot : BitVec 64) :
    Except Errno AshmemArea :=
  if asma.protMask &&& prot ≠ prot then .error .EINVAL
  else if prot &&& protRead ≠ 0 ∧ personality &&& readImpliesExec ≠ 0 then
    .ok { asma with protMask := prot ||| protExec }
  else .ok { asma with protMask := prot }

/-! ## Runs -/

/-- A mapping: its flags, and the mask of the area when `ashmem_mmap` made it. -/
structure Mapping where
  flags : VmFlags
  mask : BitVec 64
  deriving DecidableEq, Repr

/-- One area, the mask bits that it has lost, and the mappings made of it. -/
structure ProtState where
  asma : AshmemArea
  lost : BitVec 64
  maps : List Mapping
  deriving DecidableEq, Repr

inductive ProtOp where
  | setSize (size : Nat)
  | setProtMask (personality : BitVec 32) (prot : BitVec 64)
  | mmap (env : MmapEnv) (vma : Vma)
  | mprotect (i : Nat) (flags : VmFlags)
  deriving DecidableEq, Repr

/-- The state after an operation; `none` if it is not possible. A failing call leaves what the
code leaves. -/
def ProtState.exec (v : Nat) (s : ProtState) : ProtOp → Option ProtState
  | .setSize n => some
    (match ashmemSetSize s.asma n with
    | .ok asma => { s with asma }
    | .error _ => s)
  | .setProtMask personality prot => some
    (match setProtMask personality s.asma prot with
    | .ok asma => { s with asma, lost := s.lost ||| (s.asma.protMask &&& ~~~asma.protMask) }
    | .error _ => s)
  | .mmap env vma => some
    (match ashmemMmap v env s.asma vma with
    | (none, asma, vma) => { s with asma, maps := s.maps ++ [⟨vma.vmFlags, s.asma.protMask⟩] }
    | (some _, asma, _) => { s with asma })
  | .mprotect i flags =>
    match s.maps[i]? with
    | none => none
    | some m => if Mprotect m.flags flags then some { s with maps := s.maps.set i { m with flags } } else none

/-- The runs of one area, from `ashmem_open` on. -/
def protSys (v : Nat) : Sys ProtState ProtOp :=
  .ofExec (fun s => ∃ mode, s = ⟨ashmemOpen mode, 0, []⟩) (ProtState.exec v)

/-- The mapping has only rights, and can get only rights, that its mask allows. -/
def Mapping.Within (m : Mapping) : Prop :=
  Mask.Sub (m.flags &&& vmAccess) (calcVmProtBits m.mask) ∧
    Mask.Sub (m.flags &&& vmMayAccess) (calcVmMayFlags m.mask)

instance (m : Mapping) : Decidable m.Within := inferInstanceAs (Decidable (_ ∧ _))

/-- The mask has no bit that it has lost, and every mapping is within its mask. -/
def ProtState.Sound (s : ProtState) : Prop :=
  s.asma.protMask &&& s.lost = 0 ∧ ∀ m ∈ s.maps, m.Within

instance (s : ProtState) : Decidable s.Sound := inferInstanceAs (Decidable (_ ∧ _))

/-- The steps that do as the mask promises. A mask change: not one by a task with
`READ_IMPLIES_EXEC` that keeps `PROT_READ` where the mask has lost `PROT_EXEC`. A mapping: made
under a kernel where `compat_vm_flags_clear` clears, or with no `VM_MAY*` bit outside the mask. -/
def StepOk (v : Nat) (s : ProtState) : ProtOp → Prop
  | .setProtMask personality prot =>
    ¬ (Mask.Sub prot s.asma.protMask ∧ prot &&& protRead ≠ 0 ∧
      personality &&& readImpliesExec ≠ 0 ∧ s.asma.protMask &&& protExec = 0)
  | .mmap _ vma => kernelVersion 6 3 0 ≤ v ∨
    vma.vmFlags &&& calcVmMayFlags (~~~s.asma.protMask) = 0
  | _ => True

instance (v : Nat) (s : ProtState) : (op : ProtOp) → Decidable (StepOk v s op)
  | .setSize _ => inferInstanceAs (Decidable True)
  | .setProtMask _ _ => inferInstanceAs (Decidable (¬ (_ ∧ _)))
  | .mmap _ _ => inferInstanceAs (Decidable (_ ∨ _))
  | .mprotect _ _ => inferInstanceAs (Decidable True)


/-! ## The bits -/

/-- Bit `i` of `calc_vm_may_flags` is bit `i - 4` of `prot`, for the three `VM_MAY*` bits. -/
theorem getLsbD_calcVmMayFlags (p : BitVec 64) (i : Nat) :
    (calcVmMayFlags p).getLsbD i = (decide (4 ≤ i) && decide (i < 7) && p.getLsbD (i - 4)) := by
  have h : calcVmMayFlags p = calcVmTrans p (.twoPow 64 0) (.twoPow 64 4) |||
      calcVmTrans p (.twoPow 64 1) (.twoPow 64 5) |||
      calcVmTrans p (.twoPow 64 2) (.twoPow 64 6) := rfl
  rw [h]
  simp only [BitVec.getLsbD_or, getLsbD_calcVmTrans _ (by decide : 4 < 64),
    getLsbD_calcVmTrans _ (by decide : 5 < 64), getLsbD_calcVmTrans _ (by decide : 6 < 64)]
  rcases (by omega : i = 4 ∨ i = 5 ∨ i = 6 ∨ (i < 4 ∨ 7 ≤ i)) with rfl | rfl | rfl | hi
  · simp
  · simp
  · simp
  · have : ¬ (4 ≤ i ∧ i < 7) := by omega
    simp only [show i ≠ 4 by omega, show i ≠ 5 by omega, show i ≠ 6 by omega, decide_false,
      Bool.and_false, Bool.or_self, ← Bool.decide_and, this, Bool.false_and]

/-- `Within`, bit by bit. -/
theorem Mapping.within_iff {m : Mapping} : m.Within ↔
    ∀ i, i < 3 → (m.flags.getLsbD i = true → m.mask.getLsbD i = true) ∧
      (m.flags.getLsbD (i + 4) = true → m.mask.getLsbD i = true) := by
  unfold Within
  rw [Mask.sub_iff, Mask.sub_iff]
  simp only [BitVec.getLsbD_and, getLsbD_vmAccess, getLsbD_vmMayAccess, getLsbD_calcVmProtBits,
    getLsbD_calcVmMayFlags, Bool.and_eq_true, decide_eq_true_eq]
  constructor
  · rintro ⟨ha, hm⟩ i hi
    refine ⟨fun h => (ha i ⟨h, hi⟩).2, fun h => ?_⟩
    simpa using (hm (i + 4) ⟨h, by omega, by omega⟩).2
  · intro h
    refine ⟨fun i hi => ⟨hi.2, (h i hi.2).1 hi.1⟩, fun i hi => ⟨hi.2, ?_⟩⟩
    refine (h (i - 4) (by omega)).2 ?_
    rw [Nat.sub_add_cancel hi.2.1]; exact hi.1

/-- `mprotect` cannot leave the mask of a mapping. -/
theorem Mapping.Within.mprotect {m : Mapping} (h : m.Within) {f : VmFlags}
    (hf : Mprotect m.flags f) : Mapping.Within { m with flags := f } := by
  rw [within_iff] at h ⊢
  intro i hi
  refine ⟨fun hr => ?_, fun hr => ?_⟩
  · rcases hf.right hi hr with h' | h'
    · exact (h i hi).1 h'
    · exact (h i hi).2 h'
  · exact (h i hi).2 (by rw [← hf.keeps (by omega)]; exact hr)

@[simp] theorem ashmemMmapFile_snd (env : MmapEnv) (asma : AshmemArea) (vma : Vma) :
    (ashmemMmapFile env asma vma).2 = (asma, vma) := by
  unfold ashmemMmapFile; split <;> rfl

/-- `ashmem_mmap` keeps the mask, also when it fails. If it succeeds, the mapping has no access
right outside the mask, and the `VM_MAY*` bits are as `compat_vm_flags_clear` left them. -/
theorem ashmemMmap_spec (v : Nat) (env : MmapEnv) (asma : AshmemArea) (vma : Vma) :
    (ashmemMmap v env asma vma).2.1.protMask = asma.protMask ∧
    ((ashmemMmap v env asma vma).1 = none →
      (vma.vmFlags &&& ~~~calcVmProtBits asma.protMask) &&& calcVmProtBits protMaskAll = 0 ∧
      (ashmemMmap v env asma vma).2.2 =
        compatVmFlagsClear v vma (calcVmMayFlags (~~~asma.protMask))) := by
  unfold ashmemMmap
  by_cases hsz : asma.size = 0
  · simp [hsz]
  by_cases hlen : vma.vmEnd - vma.vmStart > pageAlign asma.size
  · simp [hsz, hlen]
  by_cases hacc : (vma.vmFlags &&& ~~~calcVmProtBits asma.protMask) &&&
      calcVmProtBits protMaskAll = 0
  · simp only [hsz, hlen, hacc, ne_eq, not_true_eq_false, ↓reduceIte]
    cases asma.file with
    | some f => simp
    | none => cases env.shmemFileSetup <;> simp
  · simp only [hsz, hlen, hacc, ne_eq, not_false_eq_true, ↓reduceIte, true_and]
    exact fun h => absurd h (by simp)

/-- A mapping that `ashmem_mmap` makes in a good step is within the mask. -/
theorem ashmemMmap_within {v : Nat} {env : MmapEnv} {s : ProtState} {vma : Vma}
    (hok : StepOk v s (.mmap env vma)) (h : (ashmemMmap v env s.asma vma).1 = none) :
    Mapping.Within ⟨(ashmemMmap v env s.asma vma).2.2.vmFlags, s.asma.protMask⟩ := by
  obtain ⟨hacc, hvma⟩ := (ashmemMmap_spec v env s.asma vma).2 h
  rw [hvma, Mapping.within_iff]
  intro i hi
  have hsub : (compatVmFlagsClear v vma (calcVmMayFlags (~~~s.asma.protMask))).vmFlags.getLsbD i =
      true → vma.vmFlags.getLsbD i = true := by
    unfold compatVmFlagsClear
    split
    · simp only [BitVec.getLsbD_and, Bool.and_eq_true]; exact fun h => h.1
    · exact id
  refine ⟨fun hr => ?_, fun hr => ?_⟩
  · -- The access check of `ashmem_mmap`.
    have hall : protMaskAll.getLsbD i = true := by
      rcases (by omega : i = 0 ∨ i = 1 ∨ i = 2) with rfl | rfl | rfl <;> decide
    rw [← Bool.not_eq_false]
    intro hm
    have := Mask.disj_iff.mp hacc i (by
      simp only [BitVec.getLsbD_and, BitVec.getLsbD_not, getLsbD_calcVmProtBits, hsub hr, hm,
        decide_eq_true (show i < 64 by omega), Bool.and_false]
      rfl)
    simp only [getLsbD_calcVmProtBits, hi, hall, decide_true, Bool.and_self] at this
    cases this
  · rw [← Bool.not_eq_false]
    intro hm
    have hmay : (calcVmMayFlags (~~~s.asma.protMask)).getLsbD (i + 4) = true := by
      simp only [getLsbD_calcVmMayFlags, BitVec.getLsbD_not, Nat.add_sub_cancel, hm,
        decide_eq_true (show i < 64 by omega), decide_eq_true (show 4 ≤ i + 4 by omega),
        decide_eq_true (show i + 4 < 7 by omega)]
      rfl
    unfold compatVmFlagsClear at hr
    rcases hok with hv | hno
    · simp only [hv, ↓reduceIte, BitVec.getLsbD_and, BitVec.getLsbD_not, Bool.and_eq_true,
        hmay] at hr
      simp at hr
    · have hin : vma.vmFlags.getLsbD (i + 4) = true := by
        split at hr
        · simp only [BitVec.getLsbD_and, Bool.and_eq_true] at hr; exact hr.1
        · exact hr
      rw [Mask.disj_iff.mp hno (i + 4) hin] at hmay
      cases hmay

/-- A good mask change leaves a subset of the mask. -/
theorem setProtMask_sub {v : Nat} {personality : BitVec 32} {s : ProtState} {asma : AshmemArea}
    {prot : BitVec 64} (hok : StepOk v s (.setProtMask personality prot))
    (h : setProtMask personality s.asma prot = .ok asma) :
    Mask.Sub asma.protMask s.asma.protMask := by
  unfold setProtMask at h
  split at h
  · cases h
  rename_i hsub
  have hsub : Mask.Sub prot s.asma.protMask := Mask.and_eq_right_iff.mp (by simpa using hsub)
  split at h
  · rename_i hx
    cases h
    have hexec : s.asma.protMask &&& protExec ≠ 0 := fun h0 => hok ⟨hsub, hx.1, hx.2, h0⟩
    rw [Mask.sub_iff] at hsub ⊢
    intro i hi
    rw [BitVec.getLsbD_or, Bool.or_eq_true] at hi
    rcases hi with hi | hi
    · exact hsub i hi
    · have hone : i = 2 := by
        rw [show protExec = BitVec.twoPow 64 2 from rfl, BitVec.getLsbD_twoPow] at hi
        simp at hi; exact hi.symm
      subst hone
      by_contra hn
      exact hexec (by
        rw [show protExec = BitVec.twoPow 64 2 from rfl, BitVec.and_twoPow, if_neg hn]; rfl)
  · cases h; exact hsub

/-! ## Every run of good steps -/

theorem ProtState.Sound.exec {v : Nat} {s s' : ProtState} {op : ProtOp} (hs : s.Sound)
    (hok : StepOk v s op) (h : s.exec v op = some s') : s'.Sound := by
  obtain ⟨hlost, hmaps⟩ := hs
  cases op with
  | setSize n =>
    simp only [ProtState.exec, ashmemSetSize, Option.some.injEq] at h
    subst h
    split <;> rename_i h
    · split at h <;> cases h
      exact ⟨hlost, hmaps⟩
    · exact ⟨hlost, hmaps⟩
  | setProtMask personality prot =>
    simp only [ProtState.exec, Option.some.injEq] at h
    subst h
    split <;> rename_i h
    · have hsub := setProtMask_sub hok h
      refine ⟨Mask.disj_iff.mpr fun i hi => ?_, hmaps⟩
      have := Mask.disj_iff.mp hlost i (Mask.sub_iff.mp hsub i hi)
      simp [this, hi]
    · exact ⟨hlost, hmaps⟩
  | mmap env vma =>
    simp only [ProtState.exec, Option.some.injEq] at h
    subst h
    have hmask := (ashmemMmap_spec v env s.asma vma).1
    split <;> rename_i hr
    · have hw := ashmemMmap_within hok (by rw [hr])
      rw [hr] at hmask hw
      dsimp only at hmask
      refine ⟨by rw [hmask]; exact hlost, fun m hm => ?_⟩
      rcases List.mem_append.mp hm with hm | hm
      · exact hmaps m hm
      · rw [List.mem_singleton.mp hm]; exact hw
    · rw [hr] at hmask
      dsimp only at hmask
      exact ⟨by rw [hmask]; exact hlost, hmaps⟩
  | mprotect i flags =>
    simp only [ProtState.exec] at h
    split at h
    · cases h
    · rename_i m hm
      split at h
      · rename_i hp
        cases h
        refine ⟨hlost, fun m' hm' => ?_⟩
        rcases List.mem_or_eq_of_mem_set hm' with hm' | rfl
        · exact hmaps m' hm'
        · exact (hmaps m (List.mem_of_getElem? hm)).mprotect hp
      · cases h

/-- **Sound in every run of good steps**: the mask never regains a bit, and every mapping has and
can get only the rights that the mask allowed at its creation. -/
theorem protSys_sound {v : Nat} {s : ProtState} (h : (protSys v).ReachIf (StepOk v) s) :
    s.Sound := by
  refine h.inv (I := ProtState.Sound) ?_ fun s op s' hs hok hst => hs.exec hok hst
  rintro s ⟨mode, rfl⟩
  exact ⟨by simp, by simp⟩

/-- The flags of a shared read-only mapping of a file opened for reading and writing. -/
def sharedReadFlags : VmFlags := vmRead ||| vmShared ||| vmMayread ||| vmMaywrite ||| vmMayexec

/-- A run of good steps under 6.6: a read-only mapping of an area whose mask is `PROT_READ`. -/
def mapReadOnly : List ProtOp :=
  [.setSize 4096, .setProtMask 0 protRead, .mmap ⟨none, none⟩ ⟨0, 4096, sharedReadFlags⟩]

theorem protSys_sound_mapReadOnly :
    ∃ s, (protSys (kernelVersion 6 6 0)).ReachIf (StepOk (kernelVersion 6 6 0)) s ∧
      s.maps = [⟨vmRead ||| vmShared ||| vmMayread, protRead⟩] ∧ s.Sound := by
  let r := Sys.execIf (ProtState.exec (kernelVersion 6 6 0)) (StepOk (kernelVersion 6 6 0))
    ⟨ashmemOpen 0, 0, []⟩ mapReadOnly
  have h₀ : (protSys (kernelVersion 6 6 0)).ReachIf (StepOk (kernelVersion 6 6 0))
      ⟨ashmemOpen 0, 0, []⟩ := .init ⟨0, rfl⟩
  have h := h₀.execIf (show r = some (r.get (by decide)) from (Option.some_get _).symm)
  exact ⟨r.get (by decide), h, by decide, protSys_sound h⟩

/-- Two runs that break the mask. Under 5.15, the mask is set to `PROT_READ`, the area is mapped
for reading, and `mprotect` adds `VM_WRITE`. Under 6.6, the mask loses `PROT_EXEC`, and a
`READ_IMPLIES_EXEC` task that asks for `PROT_READ` brings it back. -/
def breakMaps : List ProtOp :=
  [.setSize 4096, .setProtMask 0 protRead, .mmap ⟨none, none⟩ ⟨0, 4096, sharedReadFlags⟩,
    .mprotect 0 (sharedReadFlags ||| vmWrite)]

def breakMask : List ProtOp := [.setProtMask 0 protRead, .setProtMask readImpliesExec protRead]

theorem protSys_unsound :
    (∃ s, (protSys (kernelVersion 5 15 0)).Reach s ∧ ¬ s.Sound) ∧
    (∃ s, (protSys (kernelVersion 6 6 0)).Reach s ∧ ¬ s.Sound) := by
  let run v ops := Sys.execIf (ProtState.exec v) (fun _ _ => True) ⟨ashmemOpen 0, 0, []⟩ ops
  have h₀ : ∀ v, (protSys v).Reach ⟨ashmemOpen 0, 0, []⟩ := fun v => .init ⟨0, rfl⟩
  refine ⟨⟨(run (kernelVersion 5 15 0) breakMaps).get (by decide),
      (h₀ _).execIf (Option.some_get _).symm, by decide⟩,
    ⟨(run (kernelVersion 6 6 0) breakMask).get (by decide),
      (h₀ _).execIf (Option.some_get _).symm, by decide⟩⟩

end Redroid.Ashmem
