import Mathlib.Algebra.Group.Nat.Defs
import Redroid.Lib.Mask

/-!
# What the modules use of the kernel's memory mapping

Error numbers, the version code, the `vm_flags` bits, and the rule of `mprotect`. The modules are
built against the kernel, so these are the kernel's own definitions (`include/linux/mm.h`,
`include/linux/mman.h`) and, for `mprotect`, the one rule that the modules rely on: it gives an
access right only if the matching `VM_MAY*` bit is set.
-/

namespace Redroid

/-- The error numbers that the modelled functions return (negated, in the source). -/
inductive Errno where
  | EPERM | ESRCH | EAGAIN | ENOMEM | EFAULT | EBUSY | EINVAL | ENOSPC | EBADF | EPROTO
  | ERESTARTSYS | E2BIG
  deriving DecidableEq, Repr

/-- `KERNEL_VERSION(a, b, c)`. -/
def kernelVersion (a b c : Nat) : Nat := a * 65536 + b * 256 + min c 255

/-- `PAGE_SIZE`. -/
def pageSize : Nat := 4096

/-- `PAGE_ALIGN(x)` of a 64-bit value: it wraps past the last page. -/
def pageAlign (x : Nat) : Nat := (x + (pageSize - 1)) % 2 ^ 64 / pageSize * pageSize

/-- `vm_flags_t`, `unsigned long`. -/
abbrev VmFlags := BitVec 64

/-! ## Bits of `vm_flags` and of `prot` -/

def vmRead : VmFlags := 0x1
def vmWrite : VmFlags := 0x2
def vmExec : VmFlags := 0x4
def vmShared : VmFlags := 0x8
def vmMayread : VmFlags := 0x10
def vmMaywrite : VmFlags := 0x20
def vmMayexec : VmFlags := 0x40
def vmDontcopy : VmFlags := 0x20000
def vmNoreserve : VmFlags := 0x200000
def vmMixedmap : VmFlags := 0x10000000

/-- `VM_ACCESS_FLAGS`: the rights a mapping has. -/
def vmAccess : VmFlags := 0x7

/-- The rights `mprotect` may give to a mapping. -/
def vmMayAccess : VmFlags := 0x70

def protRead : BitVec 64 := 0x1
def protWrite : BitVec 64 := 0x2
def protExec : BitVec 64 := 0x4

/-- `_calc_vm_trans(x, bit1, bit2)`, for single bits. -/
def calcVmTrans (x bit1 bit2 : BitVec 64) : BitVec 64 := if x &&& bit1 ≠ 0 then bit2 else 0

/-- `calc_vm_prot_bits(prot, 0)`: the access bits of `vm_flags` for `prot`. -/
def calcVmProtBits (prot : BitVec 64) : VmFlags :=
  calcVmTrans prot protRead vmRead ||| calcVmTrans prot protWrite vmWrite |||
    calcVmTrans prot protExec vmExec

/-- `struct vm_area_struct`, as far as the modules read or write it. -/
structure Vma where
  vmStart : Nat
  vmEnd : Nat
  vmFlags : VmFlags
  deriving DecidableEq, Repr

/-- A mapping as the kernel makes it: whole pages of the address space. -/
structure Vma.WellFormed (vma : Vma) : Prop where
  start : vma.vmStart % pageSize = 0
  stop : vma.vmEnd % pageSize = 0
  lt : vma.vmStart < vma.vmEnd
  bound : vma.vmEnd < 2 ^ 64

/-- `mprotect` may turn the flags `f` of a mapping into `f'`: only the access bits change, and a
right is added only if its `VM_MAY*` bit (four places up) is set. -/
def Mprotect (f f' : VmFlags) : Prop :=
  f' &&& ~~~vmAccess = f &&& ~~~vmAccess ∧
    Mask.Sub (f' &&& vmAccess) ((f ||| (f >>> 4)) &&& vmAccess)

instance (f f' : VmFlags) : Decidable (Mprotect f f') := inferInstanceAs (Decidable (_ ∧ _))

/-! ## Single bits -/

theorem getLsbD_vmAccess (i : Nat) : vmAccess.getLsbD i = decide (i < 3) := by
  by_cases h : i < 64
  · revert i; decide
  · rw [BitVec.getLsbD_of_ge _ _ (by omega)]; simp; omega

theorem getLsbD_vmMayAccess (i : Nat) : vmMayAccess.getLsbD i = (decide (4 ≤ i) && decide (i < 7)) := by
  by_cases h : i < 64
  · revert i; decide
  · rw [BitVec.getLsbD_of_ge _ _ (by omega)]; simp; omega

theorem getLsbD_calcVmTrans (x : BitVec 64) {k j : Nat} (hj : j < 64) (i : Nat) :
    (calcVmTrans x (.twoPow 64 k) (.twoPow 64 j)).getLsbD i = (x.getLsbD k && decide (i = j)) := by
  unfold calcVmTrans
  rw [BitVec.and_twoPow]
  cases hx : x.getLsbD k with
  | false => simp
  | true =>
    have hk := BitVec.lt_of_getLsbD hx
    have hne : BitVec.twoPow 64 k ≠ 0 := fun h => by
      have := congrArg (·.getLsbD k) h
      simp [hk] at this
    simp only [↓reduceIte, ne_eq, hne, not_false_eq_true, BitVec.getLsbD_twoPow, hj, decide_true,
      Bool.true_and]
    exact decide_eq_decide.mpr eq_comm

/-- Bit `i` of `calc_vm_prot_bits` is bit `i` of `prot`, for the three access bits. -/
theorem getLsbD_calcVmProtBits (p : BitVec 64) (i : Nat) :
    (calcVmProtBits p).getLsbD i = (decide (i < 3) && p.getLsbD i) := by
  have h : calcVmProtBits p = calcVmTrans p (.twoPow 64 0) (.twoPow 64 0) |||
      calcVmTrans p (.twoPow 64 1) (.twoPow 64 1) |||
      calcVmTrans p (.twoPow 64 2) (.twoPow 64 2) := rfl
  rw [h]
  simp only [BitVec.getLsbD_or, getLsbD_calcVmTrans _ (by decide : 0 < 64),
    getLsbD_calcVmTrans _ (by decide : 1 < 64), getLsbD_calcVmTrans _ (by decide : 2 < 64)]
  rcases (by omega : i = 0 ∨ i = 1 ∨ i = 2 ∨ 3 ≤ i) with rfl | rfl | rfl | hi
  · simp
  · simp
  · simp
  · simp [show ¬ i < 3 by omega, show i ≠ 0 by omega, show i ≠ 1 by omega, show i ≠ 2 by omega]

/-- `mprotect` keeps every bit but the access bits. -/
theorem Mprotect.keeps {f f' : VmFlags} (h : Mprotect f f') {i : Nat} (hi : 3 ≤ i) :
    f'.getLsbD i = f.getLsbD i := by
  by_cases h64 : i < 64
  · have := congrArg (·.getLsbD i) h.1
    simp only [BitVec.getLsbD_and, BitVec.getLsbD_not, getLsbD_vmAccess] at this
    simpa [h64, show ¬ i < 3 by omega] using this
  · rw [BitVec.getLsbD_of_ge _ _ (by omega), BitVec.getLsbD_of_ge _ _ (by omega)]

/-- A right after `mprotect` was there before, or its `VM_MAY*` bit is set. -/
theorem Mprotect.right {f f' : VmFlags} (h : Mprotect f f') {i : Nat} (hi : i < 3)
    (hf : f'.getLsbD i = true) : f.getLsbD i = true ∨ f.getLsbD (i + 4) = true := by
  have := Mask.sub_iff.mp h.2 i (by simp [hf, getLsbD_vmAccess, hi])
  simp only [BitVec.getLsbD_and, BitVec.getLsbD_or, BitVec.getLsbD_ushiftRight,
    Bool.and_eq_true, Bool.or_eq_true] at this
  rw [Nat.add_comm i 4]
  exact this.1

end Redroid
