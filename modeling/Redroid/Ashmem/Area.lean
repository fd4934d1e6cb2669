import Redroid.Kernel.Vma

/-!
# Ashmem areas and unpinned ranges (`ashmem/ashmem.c`)

The data of the ashmem module: `struct ashmem_range`, `struct ashmem_area`, and the predicates on
one range that `ashmem_pin`, `ashmem_unpin` and `ashmem_get_pin_status` test.

Pointers are ids. A range is on the `unpinned_list` of its area, as a value with the id of its
struct; `RangeRef` is a pointer to it (the area and the id), as the LRU list holds it. Page
numbers are `size_t`: natural numbers, with `% 2 ^ 64` where the code computes with them.
-/

namespace Redroid.Ashmem

/-- An `ashmem_area` (its address). -/
abbrev AreaId := Nat

/-- An `ashmem_range` (its address). -/
abbrev RangeId := Nat

/-! ## Return values (`uapi/ashmem.h`) -/

def ashmemNotPurged : Nat := 0
def ashmemWasPurged : Nat := 1
def ashmemIsUnpinned : Nat := 0
def ashmemIsPinned : Nat := 1

/-- `struct ashmem_range`: a range of unpinned pages, `pgstart` to `pgend`, both inclusive. -/
structure AshmemRange where
  id : RangeId
  asma : AreaId
  pgstart : Nat
  pgend : Nat
  purged : Nat
  deriving DecidableEq, Repr

/-- A pointer to a range: the struct `id`, with `asma` its area. -/
structure RangeRef where
  asma : AreaId
  id : RangeId
  deriving DecidableEq, Repr

/-- The pointer to `r`. -/
def AshmemRange.ref (r : AshmemRange) : RangeRef := ⟨r.asma, r.id⟩

/-- `enum ashmem_backing_type`. -/
inductive AshmemBackingType where
  | shmem | memfd
  deriving DecidableEq, Repr

/-- The backing file of an area, as `shmem_file_setup` was asked for it. -/
structure BackingFile where
  name : String
  size : Nat
  flags : VmFlags
  deriving DecidableEq, Repr

/-- `struct ashmem_area`. `name` is the name without the prefix `dev/ashmem/`, empty if
`ASHMEM_SET_NAME` has set none. -/
structure AshmemArea where
  name : String
  unpinnedList : List AshmemRange
  file : Option BackingFile
  size : Nat
  protMask : BitVec 64
  backing : AshmemBackingType
  deriving DecidableEq, Repr

/-- `PROT_MASK`. -/
def protMaskAll : BitVec 64 := protExec ||| protRead ||| protWrite

/-- The area that `ashmem_open` makes, for the module parameter `ashmem_backing_mode`. -/
def ashmemOpen (ashmemBackingMode : Int) : AshmemArea where
  name := ""
  unpinnedList := []
  file := none
  size := 0
  protMask := protMaskAll
  backing := if ashmemBackingMode = 1 then .memfd else .shmem

/-- `ASHMEM_SET_SIZE`: the size can change until the backing file exists. -/
def ashmemSetSize (asma : AshmemArea) (size : Nat) : Except Errno AshmemArea :=
  if asma.file.isNone then .ok { asma with size := size % 2 ^ 64 } else .error .EINVAL

/-! ## Predicates on one range -/

/-- `range_size`, in `unsigned long` arithmetic. -/
def rangeSize (range : AshmemRange) : Nat :=
  (range.pgend + (2 ^ 64 - range.pgstart % 2 ^ 64) + 1) % 2 ^ 64

def rangeOnLru (range : AshmemRange) : Bool := range.purged == ashmemNotPurged

def pageRangeSubsumesRange (range : AshmemRange) (start stop : Nat) : Bool :=
  decide (start ≤ range.pgstart) && decide (range.pgend ≤ stop)

def pageRangeSubsumedByRange (range : AshmemRange) (start stop : Nat) : Bool :=
  decide (range.pgstart ≤ start) && decide (stop ≤ range.pgend)

def pageInRange (range : AshmemRange) (page : Nat) : Bool :=
  decide (range.pgstart ≤ page) && decide (page ≤ range.pgend)

def pageRangeInRange (range : AshmemRange) (start stop : Nat) : Bool :=
  pageInRange range start || pageInRange range stop || pageRangeSubsumesRange range start stop

def rangeBeforePage (range : AshmemRange) (page : Nat) : Bool := decide (range.pgend < page)

/-- For intervals, `page_range_in_range` tests that they have a common page. -/
theorem pageRangeInRange_iff {r : AshmemRange} {s e : Nat} (hr : r.pgstart ≤ r.pgend)
    (hse : s ≤ e) : pageRangeInRange r s e = true ↔ r.pgstart ≤ e ∧ s ≤ r.pgend := by
  simp only [pageRangeInRange, pageInRange, pageRangeSubsumesRange, Bool.or_eq_true,
    Bool.and_eq_true, decide_eq_true_eq]
  omega

end Redroid.Ashmem
