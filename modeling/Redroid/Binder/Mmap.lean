import Redroid.Lib.Sys
import Redroid.Binder.Alloc

/-!
# The mapping of the buffers (`binder_mmap`)

User space reads its buffers through one mapping of the device. `binder_mmap` refuses a writable
mapping and clears `VM_MAYWRITE`, so that `mprotect` cannot make it writable later.

* `compatVmFlagsSet`, `compatVmFlagsClear`: the macros of `binder/compat.h`, whose bodies depend on
  the kernel version.
* `userSys vma mem`: what a process can do with the mapping: `mprotect` and stores.
* `Immutable`: the flags that `binder_mmap` leaves are the ones that it asks for, and no run of the
  process changes a byte. `binderMmap_immutable_iff` says when a successful `binder_mmap` gets it.
-/

namespace Redroid.Binder

/-- `FORBIDDEN_MMAP_FLAGS`. -/
def forbiddenMmapFlags : VmFlags := vmWrite

/-- `compat_vm_flags_set(vma, flags)`. -/
def compatVmFlagsSet (v : Nat) (vma : Vma) (flags : VmFlags) : Vma :=
  if kernelVersion 6 3 0 ≤ v then { vma with vmFlags := vma.vmFlags ||| flags } else vma

/-- `compat_vm_flags_clear(vma, flags)`. -/
def compatVmFlagsClear (v : Nat) (vma : Vma) (flags : VmFlags) : Vma :=
  if kernelVersion 6 3 0 ≤ v then { vma with vmFlags := vma.vmFlags &&& ~~~flags } else vma

/-- `binder_mmap` by a thread of the process `groupLeader`, for a `binder_proc` that `tsk` opened:
the error if it fails, the allocator and the mapping. `none`: the code stops, as in the model of
`binder_alloc_mmap_handler`. -/
def binderMmap (rb : RbOps BufId) (v tsk groupLeader : Nat) (alloc : BinderAlloc) (vma : Vma)
    (kcalloc : Bool) (kzalloc : Option BufId) : Option (Option Errno × BinderAlloc × Vma) :=
  if tsk ≠ groupLeader then some (some .EINVAL, alloc, vma)
  else if vma.vmFlags &&& forbiddenMmapFlags ≠ 0 then some (some .EPERM, alloc, vma)
  else
    let vma := compatVmFlagsSet v vma (vmDontcopy ||| vmMixedmap)
    let vma := compatVmFlagsClear v vma vmMaywrite
    (binderAllocMmapHandler rb alloc vma kcalloc kzalloc).map fun (ret, alloc) => (ret, alloc, vma)

/-! ## What user space can do with the mapping -/

/-- The flags of the mapping, and the bytes behind it. -/
structure UserMap where
  flags : VmFlags
  mem : Nat → BitVec 8

inductive UserOp where
  | mprotect (flags : VmFlags)
  | store (addr : Nat) (byte : BitVec 8)

/-- The state after a step of the process; `none` if the kernel or the hardware refuses it. -/
def UserMap.exec (vma : Vma) (s : UserMap) : UserOp → Option UserMap
  | .mprotect flags => if Mprotect s.flags flags then some { s with flags } else none
  | .store addr byte =>
    if s.flags &&& vmWrite ≠ 0 ∧ vma.vmStart ≤ addr ∧ addr < vma.vmEnd then
      some { s with mem := Function.update s.mem addr byte }
    else none

/-- The runs of the process, from the flags that `vma` has. -/
def userSys (vma : Vma) (mem : Nat → BitVec 8) : Sys UserMap UserOp :=
  .ofExec (fun s => s = ⟨vma.vmFlags, mem⟩) (UserMap.exec vma)

/-- The flags of `vma'`, from those of `vma`, are as `vm_flags_set` and `vm_flags_clear` make
them: no `VM_WRITE` and no `VM_MAYWRITE`, and `VM_DONTCOPY` and `VM_MIXEDMAP` set. No run of the
process changes a byte. -/
structure Immutable (vma vma' : Vma) : Prop where
  write : vma'.vmFlags &&& vmWrite = 0
  maywrite : vma'.vmFlags &&& vmMaywrite = 0
  dontcopy : vma'.vmFlags &&& vmDontcopy = vmDontcopy
  mixedmap : vma'.vmFlags &&& vmMixedmap = vmMixedmap
  flags : vma'.vmFlags = (vma.vmFlags ||| (vmDontcopy ||| vmMixedmap)) &&& ~~~vmMaywrite
  mem : ∀ mem s, (userSys vma' mem).Reach s → s.mem = mem

/-- The flags are already the ones that `binder_mmap` asks for. -/
def FlagsSet (vma : Vma) : Prop :=
  vma.vmFlags &&& vmMaywrite = 0 ∧
    vma.vmFlags &&& (vmDontcopy ||| vmMixedmap) = vmDontcopy ||| vmMixedmap

instance (vma : Vma) : Decidable (FlagsSet vma) := inferInstanceAs (Decidable (_ ∧ _))

theorem and_vmWrite_eq_zero {f : VmFlags} : f &&& vmWrite = 0 ↔ f.getLsbD 1 = false := by
  rw [show vmWrite = BitVec.twoPow 64 1 from rfl, BitVec.and_twoPow]
  cases f.getLsbD 1 <;> decide

theorem and_vmMaywrite_eq_zero {f : VmFlags} : f &&& vmMaywrite = 0 ↔ f.getLsbD 5 = false := by
  rw [show vmMaywrite = BitVec.twoPow 64 5 from rfl, BitVec.and_twoPow]
  cases f.getLsbD 5 <;> decide

/-- One step of the process on a mapping without `VM_WRITE` and `VM_MAYWRITE`: both stay clear,
and the bytes stay. -/
theorem UserMap.exec_readOnly {vma : Vma} {s s' : UserMap} {op : UserOp}
    (hw : s.flags.getLsbD 1 = false) (hm : s.flags.getLsbD 5 = false)
    (h : s.exec vma op = some s') :
    s'.flags.getLsbD 1 = false ∧ s'.flags.getLsbD 5 = false ∧ s'.mem = s.mem := by
  cases op with
  | mprotect flags =>
    simp only [UserMap.exec] at h
    split at h
    · rename_i hp
      cases h
      refine ⟨?_, by rw [← hm]; exact hp.keeps (by decide), rfl⟩
      rw [← Bool.not_eq_true]
      intro hr
      rcases hp.right (by decide) hr with h' | h'
      · rw [hw] at h'; cases h'
      · rw [hm] at h'; cases h'
    · cases h
  | store addr byte =>
    simp only [UserMap.exec, and_vmWrite_eq_zero.mpr hw] at h
    simp at h

/-- A mapping without `VM_WRITE` and `VM_MAYWRITE` keeps its bytes in every run. -/
theorem userSys_mem {vma : Vma} (hw : vma.vmFlags &&& vmWrite = 0)
    (hm : vma.vmFlags &&& vmMaywrite = 0) {mem : Nat → BitVec 8} {s : UserMap}
    (h : (userSys vma mem).Reach s) : s.mem = mem := by
  have hinv : s.flags.getLsbD 1 = false ∧ s.flags.getLsbD 5 = false ∧ s.mem = mem := by
    refine h.inv (I := fun s => s.flags.getLsbD 1 = false ∧ s.flags.getLsbD 5 = false ∧
      s.mem = mem) ?_ ?_
    · rintro s rfl
      exact ⟨and_vmWrite_eq_zero.mp hw, and_vmMaywrite_eq_zero.mp hm, rfl⟩
    · intro s op s' ⟨h₁, h₂, h₃⟩ hst
      obtain ⟨h₁', h₂', h₃'⟩ := UserMap.exec_readOnly h₁ h₂ hst
      exact ⟨h₁', h₂', h₃'.trans h₃⟩
  exact hinv.2.2

/-- What a successful `binder_mmap` has checked, and the mapping that it leaves. -/
theorem binderMmap_success {rb : RbOps BufId} {v tsk groupLeader : Nat}
    {alloc alloc' : BinderAlloc} {vma vma' : Vma} {kcalloc : Bool} {kzalloc : Option BufId}
    (h : binderMmap rb v tsk groupLeader alloc vma kcalloc kzalloc = some (none, alloc', vma')) :
    vma.vmFlags &&& vmWrite = 0 ∧
      vma' = compatVmFlagsClear v (compatVmFlagsSet v vma (vmDontcopy ||| vmMixedmap)) vmMaywrite := by
  unfold binderMmap at h
  split at h
  · simp at h
  split at h
  · simp at h
  rename_i hf
  refine ⟨by simpa [forbiddenMmapFlags] using hf, ?_⟩
  dsimp only at h
  obtain ⟨⟨ret, alloc₁⟩, -, heq⟩ := Option.map_eq_some_iff.mp h
  simp only [Prod.mk.injEq] at heq
  exact heq.2.2.symm

/-- The flags that `vm_flags_set` and `vm_flags_clear` leave of a mapping without `VM_WRITE`. -/
theorem Immutable.of_flags {vma vma' : Vma} (hw : vma.vmFlags &&& vmWrite = 0)
    (hf : vma'.vmFlags = (vma.vmFlags ||| (vmDontcopy ||| vmMixedmap)) &&& ~~~vmMaywrite) :
    Immutable vma vma' := by
  have hsub {a : VmFlags} (ha : Mask.Sub a (vmDontcopy ||| vmMixedmap))
      (hd : a &&& vmMaywrite = 0) : vma'.vmFlags &&& a = a := by
    rw [hf, Mask.and_eq_right_iff, Mask.sub_iff]
    intro i hi
    have h₁ := Mask.sub_iff.mp ha i hi
    have h₂ := Mask.disj_iff.mp hd i hi
    have h₃ := BitVec.lt_of_getLsbD hi
    rw [BitVec.getLsbD_and, BitVec.getLsbD_or, BitVec.getLsbD_not, h₁, h₂]
    simp [h₃]
  have hwrite : vma'.vmFlags &&& vmWrite = 0 := by
    rw [hf, and_vmWrite_eq_zero, BitVec.getLsbD_and, BitVec.getLsbD_or,
      and_vmWrite_eq_zero.mp hw]
    decide
  have hmay : vma'.vmFlags &&& vmMaywrite = 0 := by rw [hf]; exact Mask.andNot_and_self
  exact
    { write := hwrite
      maywrite := hmay
      dontcopy := hsub (by decide) (by decide)
      mixedmap := hsub (by decide) (by decide)
      flags := hf
      mem := fun _ _ h => userSys_mem hwrite hmay h }

/-- Where the flags are already set, setting and clearing them changes nothing. -/
theorem FlagsSet.eq {vma : Vma} (h : FlagsSet vma) :
    vma.vmFlags = (vma.vmFlags ||| (vmDontcopy ||| vmMixedmap)) &&& ~~~vmMaywrite := by
  obtain ⟨hm, hs⟩ := h
  apply BitVec.eq_of_getLsbD_eq
  intro i hi
  rw [BitVec.getLsbD_and, BitVec.getLsbD_or, BitVec.getLsbD_not]
  cases hv : vma.vmFlags.getLsbD i with
  | true =>
    rw [Mask.disj_iff.mp hm i hv, Bool.true_or, decide_eq_true hi]
    rfl
  | false =>
    cases hd : (vmDontcopy ||| vmMixedmap).getLsbD i with
    | false => simp
    | true =>
      rw [Mask.sub_iff.mp (Mask.and_eq_right_iff.mp hs) i hd] at hv
      cases hv

/-- **The buffers are immutable to user space** after a successful `binder_mmap` exactly if the
kernel is 6.3 or later, or the flags were as they should be before: below 6.3 the two macros are
empty. -/
theorem binderMmap_immutable_iff {rb : RbOps BufId} {v tsk groupLeader : Nat}
    {alloc alloc' : BinderAlloc} {vma vma' : Vma} {kcalloc : Bool} {kzalloc : Option BufId}
    (h : binderMmap rb v tsk groupLeader alloc vma kcalloc kzalloc = some (none, alloc', vma')) :
    Immutable vma vma' ↔ kernelVersion 6 3 0 ≤ v ∨ FlagsSet vma := by
  obtain ⟨hw, rfl⟩ := binderMmap_success h
  by_cases hv : kernelVersion 6 3 0 ≤ v
  · refine ⟨fun _ => .inl hv, fun _ => .of_flags hw ?_⟩
    simp only [compatVmFlagsClear, compatVmFlagsSet, hv, ↓reduceIte]
  · simp only [compatVmFlagsClear, compatVmFlagsSet, hv, ↓reduceIte, false_or]
    refine ⟨fun hi => ⟨hi.maywrite, ?_⟩, fun hset => .of_flags hw hset.eq⟩
    rw [BitVec.and_or_distrib_left, hi.dontcopy, hi.mixedmap]

/-- The flags of a private read-only mapping of the device. -/
def privateReadFlags : VmFlags := vmRead ||| vmMayread ||| vmMaywrite ||| vmMayexec

/-- A mapping of one page with these flags. -/
def readMap : Vma := ⟨0x10000, 0x11000, privateReadFlags⟩

/-- Under 6.6 the mapping is immutable. -/
theorem binderMmap_immutable_iff_readMap :
    ∃ alloc' vma', binderMmap (.unbalanced BufId) (kernelVersion 6 6 0) 1 1 binderAllocInit readMap
      true (some 0) = some (none, alloc', vma') ∧ Immutable readMap vma' := by
  have h : ∃ alloc' vma', binderMmap (.unbalanced BufId) (kernelVersion 6 6 0) 1 1 binderAllocInit
      readMap true (some 0) = some (none, alloc', vma') := ⟨_, _, rfl⟩
  obtain ⟨alloc', vma', h⟩ := h
  exact ⟨alloc', vma', h, (binderMmap_immutable_iff h).mpr (.inl (by decide))⟩

/-- Under 5.15 the process makes the same mapping writable and stores to it. -/
theorem binderMmap_mutable :
    ∃ alloc' vma', binderMmap (.unbalanced BufId) (kernelVersion 5 15 0) 1 1 binderAllocInit readMap
      true (some 0) = some (none, alloc', vma') ∧
      vma'.vmFlags &&& vmMaywrite ≠ 0 ∧ vma'.vmFlags &&& (vmDontcopy ||| vmMixedmap) = 0 ∧
      ∃ s, (userSys vma' fun _ => 0).Reach s ∧ s.mem 0x10000 = 1 := by
  let s₀ : UserMap := ⟨privateReadFlags, fun _ => 0⟩
  let s₁ : UserMap := { s₀ with flags := privateReadFlags ||| vmWrite }
  let s₂ : UserMap := { s₁ with mem := Function.update s₁.mem 0x10000 1 }
  have h₁ : s₀.exec readMap (.mprotect (privateReadFlags ||| vmWrite)) = some s₁ :=
    if_pos (by decide)
  have h₂ : s₁.exec readMap (.store 0x10000 1) = some s₂ := if_pos (by decide)
  have h₀ : (userSys readMap fun _ => 0).Reach s₀ := .init rfl
  exact ⟨_, _, rfl, by decide, by decide, s₂, (h₀.next h₁).next h₂, by simp [s₂]⟩

end Redroid.Binder
