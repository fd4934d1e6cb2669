import Redroid.Binder.Alloc
import Redroid.Binder.Ref
import Redroid.Lib.Bytes

/-!
# The objects of a transaction buffer

The loop of `binder_transaction` over the objects of a buffer, on the bytes of the buffer: what it
accepts, where it copies the buffers of `BINDER_TYPE_PTR` objects to, and which pointers and file
descriptors it fixes up.

* `Vars` holds the bytes of the buffer, the variables of the loop and `t->fd_fixups`. `accepted`,
  `regions` and the pointers in `fixups` are kept for the statements only; the code does not read
  them.
* `objectStep` is the body of the loop, `objects` the loop. A failure keeps the state that it leaves.
* What is outside (the references, the files, the memory of the sender) is a state `σ` with the
  functions of `Hooks`.

The buffer is being built, so `check_buffer` only looks at the offset and the size. The security
context is always empty in this driver. Sizes are `Nat` with the arithmetic of `size_t`.
-/

namespace Redroid.Binder.Scatter

open Redroid.Bytes

/-! ## Objects -/

/-- `hdr.type` of an object. -/
inductive ObjKind where
  | flat (type : Refs.ObjType)
  | fd
  | fda
  | ptr
  deriving DecidableEq, Repr

namespace ObjKind

/-- The value of `BINDER_TYPE_*`. -/
def code : ObjKind → Nat
  | flat .binder => 0x73622a85
  | flat .weakBinder => 0x77622a85
  | flat .handle => 0x73682a85
  | flat .weakHandle => 0x77682a85
  | fd => 0x66642a85
  | fda => 0x66646185
  | ptr => 0x70742a85

/-- The type with this value. -/
def ofCode (c : Nat) : Option ObjKind :=
  [flat .binder, flat .weakBinder, flat .handle, flat .weakHandle, fd, fda, ptr].find? (·.code == c)

/-- The size of the struct. -/
def size : ObjKind → Nat
  | flat _ => 24
  | fd => 24
  | fda => 32
  | ptr => 40

end ObjKind

/-- `sizeof(struct binder_object)`. -/
def sizeofObject : Nat := 40

/-- `x * y` in `size_t`. -/
def mulSize (x y : Nat) : Nat := x * y % 2 ^ 64

/-- The fields of `struct binder_buffer_object`. -/
def bboFlags (obj : Bytes) : Nat := load 4 obj 4
def bboBuffer (obj : Bytes) : Nat := load 8 obj 8
def bboLength (obj : Bytes) : Nat := load 8 obj 16
def bboParent (obj : Bytes) : Nat := load 8 obj 24
def bboParentOffset (obj : Bytes) : Nat := load 8 obj 32

/-- The flag `BINDER_BUFFER_FLAG_HAS_PARENT`. -/
def hasParent (obj : Bytes) : Bool := bboFlags obj &&& 1 != 0

/-- The fields of `struct binder_fd_array_object`. -/
def fdaNumFds (obj : Bytes) : Nat := load 8 obj 8
def fdaParent (obj : Bytes) : Nat := load 8 obj 16
def fdaParentOffset (obj : Bytes) : Nat := load 8 obj 24

/-- The field `fd` of `struct binder_fd_object`. -/
def fdFd (obj : Bytes) : Nat := load 4 obj 8

/-- The object as a `struct flat_binder_object`. -/
def getFlat (type : Refs.ObjType) (obj : Bytes) : Refs.FlatObject := ⟨type, load 8 obj 8, load 8 obj 16⟩

/-- The struct with the fields of `o`; the flags stay. -/
def putFlat (o : Refs.FlatObject) (obj : Bytes) : Bytes :=
  store 8 (store 8 (store 4 obj 0 (ObjKind.flat o.type).code) 8 o.binder) 16 o.cookie

/-! ## The buffer -/

/-- What is fixed during the loop: `t->buffer` with its size in the allocator, and the bounds. -/
structure Frame where
  userData : Nat
  bufferSize : Nat
  dataSize : Nat
  offStart : Nat
  offEnd : Nat
  sgStart : Nat
  sgEnd : Nat
  deriving DecidableEq, Repr

section Buffer

variable (F : Frame) (mem : Bytes)

/-- `check_buffer`. -/
def checkBuffer (offset bytes : Nat) : Bool :=
  bytes ≤ F.bufferSize && offset ≤ F.bufferSize - bytes && offset % 4 == 0

/-- `binder_alloc_copy_from_buffer` of a number. -/
def copyFrom (bytes offset : Nat) : Option Nat :=
  if checkBuffer F offset bytes then some (load bytes mem offset) else none

/-- `binder_get_object`. -/
def getObject (offset : Nat) : Option (ObjKind × Bytes) :=
  let readSize := min sizeofObject (subSize F.dataSize offset)
  if offset > F.dataSize ∨ readSize < 4 ∨ checkBuffer F offset readSize = false then none
  else match ObjKind.ofCode (load 4 mem offset) with
    | none => none
    | some kind =>
      if offset ≤ subSize F.dataSize kind.size ∧ F.dataSize ≥ kind.size then
        some (kind, fun i => mem (offset + i))
      else none

/-- `binder_validate_ptr`: the object with its offset. -/
def validatePtr (index numValid : Nat) : Option (Bytes × Nat) :=
  if index ≥ numValid then none
  else match copyFrom F mem 8 (addSize F.offStart (mulSize 8 index)) with
    | none => none
    | some objectOffset =>
      match getObject F mem objectOffset with
      | some (.ptr, obj) => some (obj, objectOffset)
      | _ => none

/-- The loop of `binder_validate_fixup`; `none` if `fuel` rounds are not enough. -/
def walk (bufferObjOffset fixupOffset : Nat) : Nat → Nat → Nat → Option Bool
  | 0, _, _ => none
  | fuel + 1, lastObj, lastMin =>
    if lastObj = bufferObjOffset then some (lastMin ≤ fixupOffset)
    else match getObject F mem lastObj with
      | none => some false
      | some (kind, obj) =>
        if kind.size ≠ ObjKind.ptr.size || !hasParent obj then some false
        else match copyFrom F mem 8 (addSize F.offStart (mulSize 8 (bboParent obj))) with
          | none => some false
          | some next => walk bufferObjOffset fixupOffset fuel next (addSize (bboParentOffset obj) 8)

/-- `binder_validate_fixup`. -/
def validateFixup (fuel bufferObjOffset fixupOffset lastObj lastMin : Nat) : Option Bool :=
  if lastObj = 0 then some false else walk F mem bufferObjOffset fixupOffset fuel lastObj lastMin

end Buffer

/-! ## The loop -/

/-- An accepted object. -/
structure Accepted where
  offset : Nat
  kind : ObjKind
  deriving DecidableEq, Repr

/-- Where the buffer of the `BINDER_TYPE_PTR` object at `object` is copied to. -/
structure Region where
  object : Nat
  start : Nat
  length : Nat
  deriving DecidableEq, Repr

/-- A pointer into the parent buffer, the descriptor of a `BINDER_TYPE_FD` object, or one of a
`BINDER_TYPE_FDA` object. -/
inductive FixupKind where
  | ptr | fd | fda
  deriving DecidableEq, Repr

/-- What is written at `offset`, for the object at `object`, into the buffer of the object at `parent`
(for `BINDER_TYPE_FD`, into the object itself). -/
structure Fixup where
  kind : FixupKind
  object : Nat
  parent : Nat
  offset : Nat
  deriving DecidableEq, Repr

def Accepted.stop (x : Accepted) : Nat := x.offset + x.kind.size

def Region.stop (r : Region) : Nat := r.start + r.length

def Fixup.stop (f : Fixup) : Nat := f.offset + if f.kind = .ptr then 8 else 4

/-- The bytes of the buffer, and the variables of the loop. -/
structure Vars where
  mem : Bytes
  sgBufOffset : Nat
  offMin : Nat
  lastFixupObjOff : Nat
  lastFixupMinOff : Nat
  accepted : List Accepted
  regions : List Region
  fixups : List Fixup

/-- The loop, with what is outside. -/
structure State (σ : Type) extends Vars where
  out : σ

/-- What `copy_from_user` gives: the bytes, and how many of them there are before a fault. -/
structure Copy where
  bytes : Bytes
  copied : Nat

/-- What is outside of the loop, for the object at each index: `binder_translate_binder` and
`binder_translate_handle`, `binder_translate_fd` for each descriptor of an object, and the memory of
the sender. -/
structure Hooks (σ : Type) where
  flat : Nat → Refs.FlatObject → σ → Option Refs.FlatObject × σ
  fd : Nat → Nat → Nat → σ → Bool × σ
  copy : Nat → Copy

/-- The end of a step: it goes on, or it fails; `stuck`: `binder_validate_fixup` needs more rounds. -/
inductive Res (α : Type) where
  | ok (a : α)
  | fail (a : α)
  | stuck

section Loop

variable {σ : Type} (F : Frame) (H : Hooks σ)

/-- `binder_alloc_copy_to_buffer` of an object. -/
def putObject (s : State σ) (offset : Nat) (kind : ObjKind) (obj : Bytes) : Res (State σ) :=
  if checkBuffer F offset kind.size then .ok { s with mem := blit kind.size s.mem offset obj } else .fail s

/-- A `BINDER_TYPE_(WEAK_)BINDER` or `BINDER_TYPE_(WEAK_)HANDLE` object. -/
def flatStep (i offset : Nat) (type : Refs.ObjType) (obj : Bytes) (s : State σ) : Res (State σ) :=
  match H.flat i (getFlat type obj) s.out with
  | (none, out) => .fail { s with out }
  | (some o, out) => putObject F { s with out } offset (.flat o.type) (putFlat o obj)

/-- A `BINDER_TYPE_FD` object. -/
def fdStep (i offset : Nat) (obj : Bytes) (s : State σ) : Res (State σ) :=
  match H.fd i 0 (fdFd obj) s.out with
  | (false, out) => .fail { s with out }
  | (true, out) =>
    putObject F { s with out, fixups := s.fixups ++ [⟨.fd, offset, offset, offset + 8⟩] } offset .fd
      (store 8 obj 8 0)

/-- The loop of `binder_translate_fd_array`, for the first descriptors. -/
def translateFds (i object parent fdaOffset : Nat) : Nat → State σ → Res (State σ)
  | 0, s => .ok s
  | fdi + 1, s =>
    match translateFds i object parent fdaOffset fdi s with
    | .ok s =>
      let offset := addSize fdaOffset (mulSize fdi 4)
      match copyFrom F s.mem 4 offset with
      | none => .fail s
      | some fd =>
        match H.fd i fdi fd s.out with
        | (false, out) => .fail { s with out }
        | (true, out) => .ok { s with out, fixups := s.fixups ++ [⟨.fda, object, parent, offset⟩] }
    | r => r

/-- `binder_translate_fd_array`. -/
def translateFdArray (i object : Nat) (fda parentObj : Bytes) (parent : Nat) (s : State σ) : Res (State σ) :=
  let fdBufSize := mulSize 4 (fdaNumFds fda)
  let fdaOffset := addSize (subSize (bboBuffer parentObj) F.userData) (fdaParentOffset fda)
  if fdaNumFds fda ≥ (2 ^ 64 - 1) / 4 then .fail s
  else if fdBufSize > bboLength parentObj ∨
      fdaParentOffset fda > subSize (bboLength parentObj) fdBufSize then .fail s
  else if fdaOffset % 4 ≠ 0 then .fail s
  else translateFds F H i object parent fdaOffset (fdaNumFds fda) s

/-- A `BINDER_TYPE_FDA` object. -/
def fdaStep (i offset : Nat) (fda : Bytes) (s : State σ) : Res (State σ) :=
  match validatePtr F s.mem (fdaParent fda) i with
  | none => .fail s
  | some (parentObj, parent) =>
    match validateFixup F s.mem i parent (fdaParentOffset fda) s.lastFixupObjOff s.lastFixupMinOff with
    | none => .stuck
    | some false => .fail s
    | some true =>
      match translateFdArray F H i offset fda parentObj parent s with
      | .ok s => .ok { s with
          lastFixupObjOff := parent
          lastFixupMinOff := addSize (fdaParentOffset fda) (mulSize 4 (fdaNumFds fda)) }
      | r => r

/-- `binder_fixup_parent`, for the object at `offset`. -/
def fixupParent (i offset : Nat) (bp : Bytes) (s : State σ) : Res (State σ) :=
  if !hasParent bp then .ok s
  else match validatePtr F s.mem (bboParent bp) i with
    | none => .fail s
    | some (parentObj, parent) =>
      match validateFixup F s.mem i parent (bboParentOffset bp) s.lastFixupObjOff s.lastFixupMinOff with
      | none => .stuck
      | some false => .fail s
      | some true =>
        let bufferOffset := subSize (addSize (bboParentOffset bp) (bboBuffer parentObj)) F.userData
        if bboLength parentObj < 8 ∨ bboParentOffset bp > subSize (bboLength parentObj) 8 then .fail s
        else if checkBuffer F bufferOffset 8 then
          .ok { s with
            mem := store 8 s.mem bufferOffset (bboBuffer bp)
            fixups := s.fixups ++ [⟨.ptr, offset, parent, bufferOffset⟩] }
        else .fail s

/-- `binder_alloc_copy_user_to_buffer`: the bytes left to copy, and the buffer. -/
def copyUser (copy : Copy) (mem : Bytes) (offset bytes : Nat) : Nat × Bytes :=
  if checkBuffer F offset bytes then
    (bytes - min copy.copied bytes, blit (min copy.copied bytes) mem offset copy.bytes)
  else (bytes, mem)

/-- A `BINDER_TYPE_PTR` object. -/
def ptrStep (i offset : Nat) (bp : Bytes) (s : State σ) : Res (State σ) :=
  let start := s.sgBufOffset
  let length := bboLength bp
  if length > subSize F.sgEnd start then .fail s
  else
    let (left, mem) := copyUser F (H.copy i) s.mem start length
    let s := { s with mem, regions := s.regions ++ [⟨offset, start, length⟩] }
    if left ≠ 0 then .fail s
    else
      let bp := store 8 bp 8 (addSize F.userData start)
      match fixupParent F i offset bp { s with sgBufOffset := addSize start (alignPtr length) } with
      | .ok s =>
        match putObject F s offset .ptr bp with
        | .ok s => .ok { s with lastFixupObjOff := offset, lastFixupMinOff := 0 }
        | r => r
      | r => r

/-- The body of the loop, for the `i`th object. -/
def objectStep (i : Nat) (s : State σ) : Res (State σ) :=
  match copyFrom F s.mem 8 (F.offStart + 8 * i) with
  | none => .fail s
  | some offset =>
    match getObject F s.mem offset with
    | none => .fail s
    | some (kind, obj) =>
      if offset < s.offMin then .fail s
      else
        let s := { s with offMin := offset + kind.size, accepted := s.accepted ++ [⟨offset, kind⟩] }
        match kind with
        | .flat type => flatStep F H i offset type obj s
        | .fd => fdStep F H i offset obj s
        | .fda => fdaStep F H i offset obj s
        | .ptr => ptrStep F H i offset obj s

/-- The loop, up to the `n`th object. -/
def objects (s : State σ) : Nat → Res (State σ)
  | 0 => .ok s
  | n + 1 =>
    match objects s n with
    | .ok s => objectStep F H n s
    | r => r

end Loop

/-! ## Before the loop -/

/-- The sizes in `struct binder_transaction_data_sg`. -/
structure Request where
  dataSize : UInt64
  offsetsSize : UInt64
  buffersSize : UInt64
  deriving DecidableEq, Repr

/-- The bounds of a request, for a buffer of the allocator at `userData`. -/
def Request.frame (tr : Request) (userData : UInt64) (bufferSize : Nat) : Frame :=
  let offStart := alignPtr tr.dataSize.toNat
  let offEnd := addSize offStart tr.offsetsSize.toNat
  let sgStart := alignPtr offEnd
  { userData := userData.toNat, bufferSize, dataSize := tr.dataSize.toNat, offStart, offEnd, sgStart
    sgEnd := addSize sgStart tr.buffersSize.toNat }

/-- The checks before the loop, with those of `binder_alloc_new_buf`. -/
def Request.valid (tr : Request) (bufferSize : Nat) : Bool :=
  (match requestSize tr.dataSize.toNat tr.offsetsSize.toNat tr.buffersSize.toNat with
    | .ok size => size ≤ bufferSize
    | .error _ => false) &&
    tr.offsetsSize.toNat % 8 == 0 && tr.buffersSize.toNat % 8 == 0

/-- The variables before the loop; `mem` has the data and the offsets of the sender. -/
def startState {σ : Type} (F : Frame) (mem : Bytes) (out : σ) : State σ :=
  { mem, sgBufOffset := F.sgStart, offMin := 0, lastFixupObjOff := 0, lastFixupMinOff := 0
    accepted := [], regions := [], fixups := [], out }

end Redroid.Binder.Scatter
