import Mathlib.Data.Set.Card
import Redroid.Ashmem.Prot
import Redroid.Ashmem.Shared

/-!
# The shrinker and the pin ioctls, over all interleavings

`ashmem_shrink_scan` marks a range purged under `ashmem_mutex` and punches the hole without it.
The pin ioctls wait, with the mutex held, until no hole is in flight.

* `ashmemPinUnpin`: the ioctl's body, with the computation of the page interval.
* `Conc`, `Step`: the areas, the mutex, `ashmem_shrink_inflight` and the threads, each at a place
  of its code (`Pc`). A hole is punched page by page. Two ghost fields: the pages that the last
  request on them has unpinned, and the pages punched since then.
* `concSys_safe`: a hole is punched only over unpinned pages, never while the body of an ioctl
  runs, and a pin that returns `ASHMEM_NOT_PURGED` covers no unpinned page that was punched.
-/

namespace Redroid.Ashmem

/-! ## The ioctl -/

/-- `struct ashmem_pin`. -/
structure AshmemPin where
  offset : BitVec 32
  len : BitVec 32
  deriving DecidableEq, Repr

inductive PinCmd where
  | pin | unpin | getPinStatus
  deriving DecidableEq, Repr

/-- `pin.len`, with 0 for "everything onward", in `__u32`. -/
def pinLen (asma : AshmemArea) (pin : AshmemPin) : Nat :=
  if pin.len = 0 then (pageAlign asma.size + (2 ^ 64 - pin.offset.toNat)) % 2 ^ 64 % 2 ^ 32
  else pin.len.toNat

/-- `pgstart` and `pgend` of a request; `none`: it is refused. -/
def pinInterval (asma : AshmemArea) (pin : AshmemPin) : Option (Nat × Nat) :=
  let offset := pin.offset.toNat
  let len := pinLen asma pin
  if (offset ||| len) % pageSize ≠ 0 then none
  else if 2 ^ 32 - 1 - offset < len then none
  else if pageAlign asma.size < (offset + len) % 2 ^ 32 then none
  else
    let pgstart := offset / pageSize
    some (pgstart, (pgstart + len / pageSize + (2 ^ 64 - 1)) % 2 ^ 64)

/-- `ashmem_pin_unpin` from the end of its wait to `out_unlock`; `none` as in `Shared.exec`. -/
def ashmemPinUnpin (S : Shared) (a : AreaId) (asma : AshmemArea) (cmd : PinCmd) (pin : AshmemPin)
    (range : RangeId) : Option (Except Errno Nat × Shared) :=
  if asma.file.isNone then some (.error .EINVAL, S)
  else match pinInterval asma pin with
    | none => some (.error .EINVAL, S)
    | some (pgstart, pgend) =>
      match cmd with
      | .pin => (S.pin a asma pgstart pgend range).map fun (ret, S) => (.ok ret, S)
      | .unpin => (S.unpin a asma pgstart pgend range).map fun (ret, S) => (.ok ret, S)
      | .getPinStatus => some (.ok (ashmemGetPinStatus asma.unpinnedList pgstart pgend), S)

/-! ## Threads -/

abbrev Tid := Nat

/-- Where a thread is: in a pin ioctl on the area `a` with the preallocated range `range`, or in
`ashmem_shrink_scan` with `nr` for `sc->nr_to_scan`. -/
inductive Pc where
  | idle
  /-- Before `mutex_lock`. -/
  | lock (a : AreaId) (cmd : PinCmd) (pin : AshmemPin) (range : RangeId)
  /-- In `wait_event`, with the mutex. -/
  | wait (a : AreaId) (cmd : PinCmd) (pin : AshmemPin) (range : RangeId)
  /-- After `wait_event`, with the mutex. -/
  | body (a : AreaId) (cmd : PinCmd) (pin : AshmemPin) (range : RangeId)
  /-- At the head of the loop, with the mutex. -/
  | scan (nr : Nat)
  /-- In `fallocate` of the bytes `start` to `stop` of the file of `a`. -/
  | punch (nr : Nat) (a : AreaId) (start stop : Nat)
  /-- After `fallocate`, before `atomic_dec_and_test`. -/
  | punched (nr : Nat)
  /-- Before `mutex_trylock` at the end of the loop. -/
  | relock (nr : Nat)
  deriving DecidableEq, Repr

/-- The thread holds `ashmem_mutex`. -/
def Pc.holds : Pc → Bool
  | .wait .. | .body .. | .scan _ => true
  | _ => false

/-- The thread is counted in `ashmem_shrink_inflight`. -/
def Pc.inFlight : Pc → Bool
  | .punch .. | .punched _ => true
  | _ => false

/-- The range that the ioctl of the thread has allocated. -/
def Pc.range : Pc → Option RangeId
  | .lock _ _ _ range | .wait _ _ _ range | .body _ _ _ range => some range
  | _ => none

/-- The area that the ioctl of the thread is on. -/
def Pc.area : Pc → Option AreaId
  | .lock a _ _ _ | .wait a _ _ _ | .body a _ _ _ => some a
  | _ => none

/-- Page `p` has a byte in the hole from `start` to `stop`. -/
def inHole (start stop p : Nat) : Prop := start < (p + 1) * pageSize ∧ p * pageSize < stop

/-- The state of the module: what the mutex protects, its owner, `ashmem_shrink_inflight`, the
threads, and the ids for the next open area and the next allocated range.

Ghost: `unpinned a p`, the last request that covered page `p` of `a` was an unpin; `punched a p`,
a hole was punched over it since it became unpinned. -/
structure Conc where
  shared : Shared
  mutex : Option Tid
  inflight : Nat
  pc : Tid → Pc
  nextArea : AreaId
  nextRange : RangeId
  unpinned : AreaId → Nat → Prop
  punched : AreaId → Nat → Prop

namespace Conc

/-- Thread `t` goes on to `c`. -/
def goto (s : Conc) (t : Tid) (c : Pc) : Conc := { s with pc := Function.update s.pc t c }

/-- The ghost fields after a request on the pages `s` to `e` of `a`. -/
def request (s : Conc) (a : AreaId) (cmd : PinCmd) (lo hi : Nat) : Conc :=
  match cmd with
  | .pin => { s with unpinned := fun b p => s.unpinned b p ∧ ¬ (b = a ∧ lo ≤ p ∧ p ≤ hi) }
  | .unpin =>
    { s with
      unpinned := fun b p => s.unpinned b p ∨ (b = a ∧ lo ≤ p ∧ p ≤ hi)
      punched := fun b p => s.punched b p ∧ ¬ (¬ s.unpinned b p ∧ b = a ∧ lo ≤ p ∧ p ≤ hi) }
  | .getPinStatus => s

/-- The ghost fields after the body of an ioctl. -/
def requested (s : Conc) (a : AreaId) (asma : AshmemArea) (cmd : PinCmd) (pin : AshmemPin) : Conc :=
  if asma.file.isNone then s
  else match pinInterval asma pin with
    | none => s
    | some (lo, hi) => s.request a cmd lo hi

end Conc

inductive Act where
  | open (ashmemBackingMode : Int)
  | setSize (a : AreaId) (size : Nat)
  | mmap (a : AreaId) (env : MmapEnv) (vma : Vma)
  | release (a : AreaId)
  | ioctl (t : Tid) (a : AreaId) (cmd : PinCmd) (pin : AshmemPin)
  | lock (t : Tid)
  | wake (t : Tid)
  | run (t : Tid)
  | shrink (t : Tid) (nr : Nat)
  | take (t : Tid)
  | punchPage (t : Tid) (p : Nat)
  | punchEnd (t : Tid)
  | decInflight (t : Tid)
  | relock (t : Tid)
  | giveUp (t : Tid)

/-- The atomic steps, under kernel version `v`. A call that takes the mutex and changes only the
areas is one step, possible when the mutex is free. A failing `mutex_trylock` at the start of
`ashmem_shrink_scan` and an ioctl that returns before `mutex_lock` change nothing and are left
out. -/
inductive Step (v : Nat) (s : Conc) : Act → Conc → Prop
  | open (mode : Int) : s.mutex = none →
    Step v s (.open mode) { s with
      shared := s.shared.setArea s.nextArea (ashmemOpen mode), nextArea := s.nextArea + 1 }
  | setSize (a : AreaId) (size : Nat) {asma asma' : AshmemArea} : s.mutex = none →
    asma ∈ s.shared.areas a → ashmemSetSize asma size = .ok asma' →
    Step v s (.setSize a size) { s with shared := s.shared.setArea a asma' }
  | mmap (a : AreaId) (env : MmapEnv) (vma : Vma) {asma : AshmemArea} : s.mutex = none →
    asma ∈ s.shared.areas a →
    Step v s (.mmap a env vma) { s with
      shared := s.shared.setArea a (ashmemMmap v env asma vma).2.1 }
  /-- The last reference to the file is gone: no ioctl on it is under way. -/
  | release (a : AreaId) {asma : AshmemArea} : s.mutex = none → asma ∈ s.shared.areas a →
    (∀ t, (s.pc t).area ≠ some a) →
    Step v s (.release a) { s with shared := s.shared.release a asma }
  | ioctl (t : Tid) (a : AreaId) (cmd : PinCmd) (pin : AshmemPin) : s.pc t = .idle →
    (s.shared.areas a).isSome →
    Step v s (.ioctl t a cmd pin)
      { s.goto t (.lock a cmd pin s.nextRange) with nextRange := s.nextRange + 1 }
  | lock (t : Tid) {a : AreaId} {cmd : PinCmd} {pin : AshmemPin} {range : RangeId} :
    s.pc t = .lock a cmd pin range → s.mutex = none →
    Step v s (.lock t) { s.goto t (.wait a cmd pin range) with mutex := some t }
  | wake (t : Tid) {a : AreaId} {cmd : PinCmd} {pin : AshmemPin} {range : RangeId} :
    s.pc t = .wait a cmd pin range → s.inflight = 0 →
    Step v s (.wake t) (s.goto t (.body a cmd pin range))
  | run (t : Tid) {a : AreaId} {cmd : PinCmd} {pin : AshmemPin} {range : RangeId}
    {asma : AshmemArea} {ret : Except Errno Nat} {S : Shared} :
    s.pc t = .body a cmd pin range → asma ∈ s.shared.areas a →
    ashmemPinUnpin s.shared a asma cmd pin range = some (ret, S) →
    Step v s (.run t)
      { (s.requested a asma cmd pin).goto t .idle with shared := S, mutex := none }
  | shrink (t : Tid) (nr : Nat) : s.pc t = .idle → s.mutex = none →
    Step v s (.shrink t nr) { s.goto t (.scan nr) with mutex := some t }
  | takeNone (t : Tid) {nr : Nat} : s.pc t = .scan nr → s.shared.lru.list = [] →
    Step v s (.take t) { s.goto t .idle with mutex := none }
  | take (t : Tid) {nr : Nat} {ref : RangeRef} {rest : List RangeRef} {asma : AshmemArea}
    {range : AshmemRange} {f : BackingFile} : s.pc t = .scan nr →
    s.shared.lru.list = ref :: rest → s.shared.deref ref = some (asma, range) → f ∈ asma.file →
    Step v s (.take t)
      { s.goto t (.punch nr ref.asma (range.pgstart * pageSize % 2 ^ 64)
          ((range.pgend + 1) % 2 ^ 64 * pageSize % 2 ^ 64)) with
        shared := s.shared.purge ref.asma asma range
        inflight := s.inflight + 1
        mutex := none }
  | punchPage (t : Tid) (p : Nat) {nr : Nat} {a : AreaId} {start stop : Nat} :
    s.pc t = .punch nr a start stop → inHole start stop p →
    Step v s (.punchPage t p) { s with punched := fun b q => s.punched b q ∨ (b = a ∧ q = p) }
  | punchEnd (t : Tid) {nr : Nat} {a : AreaId} {start stop : Nat} :
    s.pc t = .punch nr a start stop → Step v s (.punchEnd t) (s.goto t (.punched nr))
  | decInflight (t : Tid) {nr : Nat} : s.pc t = .punched nr →
    Step v s (.decInflight t) { s.goto t (.relock nr) with inflight := s.inflight - 1 }
  | relock (t : Tid) {nr : Nat} : s.pc t = .relock nr → s.mutex = none →
    (nr + (2 ^ 64 - 1)) % 2 ^ 64 ≠ 0 →
    Step v s (.relock t)
      { s.goto t (.scan ((nr + (2 ^ 64 - 1)) % 2 ^ 64)) with mutex := some t }
  | relockDone (t : Tid) {nr : Nat} : s.pc t = .relock nr → s.mutex = none →
    (nr + (2 ^ 64 - 1)) % 2 ^ 64 = 0 → Step v s (.relock t) (s.goto t .idle)
  | giveUp (t : Tid) {nr : Nat} : s.pc t = .relock nr → Step v s (.giveUp t) (s.goto t .idle)

/-- The module after `ashmem_init`. -/
def Conc.start : Conc where
  shared := ⟨fun _ => none, ⟨[], 0⟩⟩
  mutex := none
  inflight := 0
  pc _ := .idle
  nextArea := 0
  nextRange := 0
  unpinned _ _ := False
  punched _ _ := False

/-- All interleavings, under kernel version `v`. -/
def concSys (v : Nat) : Sys Conc Act where
  init s := s = .start
  step := Step v

/-- The body of an ioctl runs on an interval of pages. -/
def IntervalOk (s : Conc) : Act → Prop
  | .run t => ∀ a cmd pin range, s.pc t = .body a cmd pin range →
    ∀ asma ∈ s.shared.areas a, ∀ i ∈ pinInterval asma pin, i.1 ≤ i.2
  | _ => True

/-! ## Control: the mutex and the counter -/

/-- The mutex is with the thread that is in a section under it, `ashmem_shrink_inflight` counts
the threads with a hole in flight, and it is 0 while the body of an ioctl runs. -/
structure Ctl (s : Conc) : Prop where
  mutex : ∀ t, (s.pc t).holds = true ↔ s.mutex = some t
  inflight : {t | (s.pc t).inFlight = true}.encard = s.inflight
  body : ∀ t a cmd pin range, s.pc t = .body a cmd pin range → s.inflight = 0

section Control

variable {v : Nat} {s s' : Conc} {x : Act} {t : Tid} {c : Pc}

@[simp] theorem Conc.goto_pc : (s.goto t c).pc = Function.update s.pc t c := rfl
@[simp] theorem Conc.goto_shared : (s.goto t c).shared = s.shared := rfl
@[simp] theorem Conc.goto_inflight : (s.goto t c).inflight = s.inflight := rfl
@[simp] theorem Conc.goto_mutex : (s.goto t c).mutex = s.mutex := rfl
@[simp] theorem Conc.goto_nextArea : (s.goto t c).nextArea = s.nextArea := rfl
@[simp] theorem Conc.goto_nextRange : (s.goto t c).nextRange = s.nextRange := rfl
@[simp] theorem Conc.goto_unpinned : (s.goto t c).unpinned = s.unpinned := rfl
@[simp] theorem Conc.goto_punched : (s.goto t c).punched = s.punched := rfl

/-- The body of an ioctl touches no control state. -/
theorem Conc.requested_ctl {a : AreaId} {asma : AshmemArea} {cmd : PinCmd} {pin : AshmemPin} :
    (s.requested a asma cmd pin).pc = s.pc ∧
    (s.requested a asma cmd pin).inflight = s.inflight ∧
    (s.requested a asma cmd pin).nextArea = s.nextArea ∧
    (s.requested a asma cmd pin).nextRange = s.nextRange := by
  unfold requested
  split
  · exact ⟨rfl, rfl, rfl, rfl⟩
  split
  · exact ⟨rfl, rfl, rfl, rfl⟩
  · unfold request
    split <;> exact ⟨rfl, rfl, rfl, rfl⟩

/-- The threads in flight after `t` moved between two places of the same kind. -/
theorem inFlight_same (h : c.inFlight = (s.pc t).inFlight) :
    {u | (Function.update s.pc t c u).inFlight = true} = {u | (s.pc u).inFlight = true} := by
  ext u
  by_cases hu : u = t
  · subst hu; simp [h]
  · simp [hu]

/-- A step of `t` that takes or leaves the mutex, or neither, as its place says. -/
theorem mutex_goto (h : Ctl s) {m : Option Tid}
    (hm : (c.holds = true ∧ m = some t ∧ (s.mutex = none ∨ s.mutex = some t)) ∨
      (c.holds = false ∧ m = none ∧ (s.mutex = none ∨ s.mutex = some t)) ∨
      (c.holds = false ∧ (s.pc t).holds = false ∧ m = s.mutex)) :
    ∀ u, (Function.update s.pc t c u).holds = true ↔ m = some u := by
  intro u
  have ht := h.mutex t
  have hu := h.mutex u
  by_cases hut : u = t
  · subst hut
    rw [Function.update_self]
    rcases hm with ⟨h1, rfl, -⟩ | ⟨h1, rfl, -⟩ | ⟨h1, h2, rfl⟩
    · simp [h1]
    · simp [h1]
    · rw [h1, ← hu, h2]
  · rw [Function.update_of_ne hut, hu]
    rcases hm with ⟨-, rfl, hs⟩ | ⟨-, rfl, hs⟩ | ⟨-, -, rfl⟩
    · rcases hs with hs | hs <;> simp [hs, Ne.symm hut]
    · rcases hs with hs | hs <;> simp [hs, Ne.symm hut]
    · exact Iff.rfl

/-- A step of `t` that leaves the counter alone. -/
theorem Ctl.goto (h : Ctl s) (hc : c.inFlight = (s.pc t).inFlight)
    (hb : ∀ a cmd pin range, c = .body a cmd pin range → s.inflight = 0)
    (hs' : s'.pc = Function.update s.pc t c) (hi : s'.inflight = s.inflight)
    (hm : (c.holds = true ∧ s'.mutex = some t ∧ (s.mutex = none ∨ s.mutex = some t)) ∨
      (c.holds = false ∧ s'.mutex = none ∧ (s.mutex = none ∨ s.mutex = some t)) ∨
      (c.holds = false ∧ (s.pc t).holds = false ∧ s'.mutex = s.mutex)) : Ctl s' := by
  refine ⟨by rw [hs']; exact mutex_goto h hm, by rw [hs', hi, inFlight_same hc]; exact h.inflight, ?_⟩
  intro u a cmd pin range hu
  rw [hs'] at hu
  rw [hi]
  by_cases hut : u = t
  · rw [hut, Function.update_self] at hu
    exact hb a cmd pin range hu
  · rw [Function.update_of_ne hut] at hu
    exact h.body u a cmd pin range hu

/-- A step that leaves the threads alone. -/
theorem Ctl.same (h : Ctl s) (hp : s'.pc = s.pc) (hm : s'.mutex = s.mutex)
    (hi : s'.inflight = s.inflight) : Ctl s' :=
  ⟨by rw [hp, hm]; exact h.mutex, by rw [hp, hi]; exact h.inflight, by rw [hp, hi]; exact h.body⟩

theorem Ctl.step (h : Ctl s) (hst : Step v s x s') : Ctl s' := by
  have hold : ∀ t, (s.pc t).holds = true → s.mutex = some t := fun t => (h.mutex t).mp
  cases hst with
  | «open» mode hm => exact h.same rfl rfl rfl
  | setSize a size hm ha hs => exact h.same rfl rfl rfl
  | mmap a env vma hm ha => exact h.same rfl rfl rfl
  | release a hm ha hu => exact h.same rfl rfl rfl
  | ioctl t a cmd pin hp ha =>
    exact h.goto (t := t) (by rw [hp]; rfl) (by simp) rfl rfl (.inr (.inr ⟨rfl, by rw [hp]; rfl, rfl⟩))
  | lock t hp hm =>
    exact h.goto (t := t) (by rw [hp]; rfl) (by simp) rfl rfl (.inl ⟨rfl, rfl, .inl hm⟩)
  | wake t hp hi =>
    exact h.goto (t := t) (by rw [hp]; rfl) (by simp [hi]) rfl rfl
      (.inl ⟨rfl, hold t (by rw [hp]; rfl), .inr (hold t (by rw [hp]; rfl))⟩)
  | run t hp ha heq =>
    exact h.goto (t := t) (c := .idle) (by rw [hp]; rfl) (by simp)
      (by simp [Conc.requested_ctl.1]) Conc.requested_ctl.2.1
      (.inr (.inl ⟨rfl, rfl, .inr (hold t (by rw [hp]; rfl))⟩))
  | shrink t nr hp hm =>
    exact h.goto (t := t) (by rw [hp]; rfl) (by simp) rfl rfl (.inl ⟨rfl, rfl, .inl hm⟩)
  | takeNone t hp hl =>
    exact h.goto (t := t) (by rw [hp]; rfl) (by simp) rfl rfl
      (.inr (.inl ⟨rfl, rfl, .inr (hold t (by rw [hp]; rfl))⟩))
  | take t hp hl hd hf =>
    have ht := hold t (by rw [hp]; rfl)
    refine ⟨mutex_goto h (.inr (.inl ⟨rfl, rfl, .inr ht⟩)), ?_, ?_⟩
    · show {u | (Function.update s.pc t _ u).inFlight = true}.encard = ((s.inflight + 1 : Nat) : ℕ∞)
      have hset : ∀ c : Pc, c.inFlight = true → {u | (Function.update s.pc t c u).inFlight = true} =
          insert t {u | (s.pc u).inFlight = true} := fun c hc => by
        ext u
        by_cases hu : u = t
        · subst hu; simp [hc]
        · simp [hu]
      rw [hset _ rfl, Set.encard_insert_of_notMem (by simp [hp, Pc.inFlight]), h.inflight]
      rfl
    · intro u a cmd pin range hu
      -- the body of `u` would hold the mutex, which `t` holds
      by_cases hut : u = t
      · simp [hut] at hu
      · simp only [Conc.goto_pc, Function.update_of_ne hut] at hu
        have := hold u (by rw [hu]; rfl)
        rw [ht] at this
        exact absurd (Option.some.inj this).symm hut
  | punchPage t p hp hh => exact h.same rfl rfl rfl
  | punchEnd t hp =>
    exact h.goto (t := t) (by rw [hp]; rfl) (by simp) rfl rfl (.inr (.inr ⟨rfl, by rw [hp]; rfl, rfl⟩))
  | @decInflight t nr hp =>
    have hset : {u | (s.pc u).inFlight = true} =
        insert t {u | (Function.update s.pc t (.relock nr) u).inFlight = true} := by
      ext u
      by_cases hu : u = t
      · subst hu; simp [hp, Pc.inFlight]
      · simp [hu]
    have hcard := h.inflight
    rw [hset, Set.encard_insert_of_notMem (by simp [Pc.inFlight])] at hcard
    refine ⟨mutex_goto h (.inr (.inr ⟨rfl, by rw [hp]; rfl, rfl⟩)), ?_, ?_⟩
    · show Set.encard _ = ((s.inflight - 1 : Nat) : ℕ∞)
      obtain ⟨k, hk⟩ : ∃ k, s.inflight = k + 1 := Nat.exists_eq_succ_of_ne_zero fun h0 => by
        rw [h0] at hcard
        simp at hcard
      rw [hk] at hcard ⊢
      exact ENat.add_left_injective_of_ne_top (n := 1) (by simp) hcard
    · intro u a cmd pin range hu
      by_cases hut : u = t
      · simp [hut] at hu
      · simp only [Conc.goto_pc, Function.update_of_ne hut] at hu
        show s.inflight - 1 = 0
        rw [h.body u a cmd pin range hu]
  | relock t hp hm hn =>
    exact h.goto (t := t) (by rw [hp]; rfl) (by simp) rfl rfl (.inl ⟨rfl, rfl, .inl hm⟩)
  | relockDone t hp hm hn =>
    exact h.goto (t := t) (by rw [hp]; rfl) (by simp) rfl rfl (.inr (.inr ⟨rfl, by rw [hp]; rfl, rfl⟩))
  | giveUp t hp =>
    exact h.goto (t := t) (by rw [hp]; rfl) (by simp) rfl rfl (.inr (.inr ⟨rfl, by rw [hp]; rfl, rfl⟩))

/-- While the body of an ioctl runs, no hole is in flight. -/
theorem Ctl.not_inFlight (h : Ctl s) {a : AreaId} {cmd : PinCmd} {pin : AshmemPin}
    {range : RangeId} (hb : s.pc t = .body a cmd pin range) (u : Tid) :
    (s.pc u).inFlight = false := by
  have h0 := h.inflight
  rw [h.body t a cmd pin range hb, Nat.cast_zero, Set.encard_eq_zero] at h0
  by_contra hu
  exact (Set.eq_empty_iff_forall_notMem.mp h0) u (by simpa using hu)

end Control

/-! ## Data: the pages -/

/-- The ends that a range can have: a request is on pages below `2 ^ 20`, or up to `SIZE_MAX` if
its length wrapped to 0. -/
def AshmemRange.Ends (r : AshmemRange) : Prop :=
  r.pgstart ≤ 2 ^ 20 ∧ (r.pgend < 2 ^ 20 ∨ r.pgend = 2 ^ 64 - 1)

/-- What holds of an open area: `U` are its pages that were last requested to be unpinned, `P`
those punched since. -/
structure AreaOk (nextRange : RangeId) (U P : Nat → Prop) (asma : AshmemArea) : Prop where
  ids : ∀ r ∈ asma.unpinnedList, r.id < nextRange
  file : asma.file = none → asma.unpinnedList = []
  ghost : ∀ p, U p ↔ p ∈ asma.unpinned
  ends : ∀ r ∈ asma.unpinnedList, r.Ends
  purged : ∀ p, U p → P p → p ∈ asma.purgedPages

/-- The areas are as `AreaOk` says; the ranges allocated by ioctls under way are in no list and
all different; the pages of a hole are unpinned, and in a range marked purged. -/
structure Data (s : Conc) : Prop where
  ok : s.shared.Ok
  area : ∀ a, ∀ asma ∈ s.shared.areas a,
    a < s.nextArea ∧ AreaOk s.nextRange (s.unpinned a) (s.punched a) asma
  new : ∀ a, s.nextArea ≤ a → ∀ p, ¬ s.unpinned a p
  held : ∀ t, ∀ id ∈ (s.pc t).range, id < s.nextRange ∧ s.shared.Unused id
  heldNe : ∀ t u, ∀ id ∈ (s.pc t).range, id ∈ (s.pc u).range → t = u
  hole : ∀ t nr a start stop, s.pc t = .punch nr a start stop → ∀ p, inHole start stop p →
    s.unpinned a p ∧ ∀ asma ∈ s.shared.areas a, p ∈ asma.purgedPages

section Pages

variable {v : Nat} {s s' : Conc} {x : Act} {t : Tid} {c : Pc} {a : AreaId} {asma asma' : AshmemArea}
  {l' : List AshmemRange} {st' : Pinning}

/-- The ends of a request. -/
theorem pinInterval_ends {pin : AshmemPin} {lo hi : Nat} (h : pinInterval asma pin = some (lo, hi))
    (hle : lo ≤ hi) : lo < 2 ^ 20 ∧ (hi < 2 ^ 20 ∨ hi = 2 ^ 64 - 1) := by
  simp only [pinInterval, Option.ite_none_left_eq_some, Option.some.injEq, Prod.mk.injEq] at h
  obtain ⟨-, hlen, -, rfl, rfl⟩ := h
  have := pin.offset.isLt
  unfold pageSize at *
  omega

/-- The hole of a range has only pages of the range. -/
theorem inHole_range {r : AshmemRange} {p : Nat} (hr : r.Ends)
    (h : inHole (r.pgstart * pageSize % 2 ^ 64) ((r.pgend + 1) % 2 ^ 64 * pageSize % 2 ^ 64) p) :
    r.pgstart ≤ p ∧ p ≤ r.pgend := by
  obtain ⟨h1, h2⟩ := h
  obtain ⟨h3, h4⟩ := hr
  unfold pageSize at h1 h2
  omega

/-- A step of `t` that changes nothing but its place, not to `punch` or into an ioctl. -/
theorem Data.goto (h : Data s) (hr : ∀ id ∈ c.range, id ∈ (s.pc t).range)
    (hc : ∀ nr a start stop, c ≠ .punch nr a start stop) (hp : s'.pc = Function.update s.pc t c)
    (hs : s'.shared = s.shared) (hu : s'.unpinned = s.unpinned) (hx : s'.punched = s.punched)
    (hna : s'.nextArea = s.nextArea) (hnr : s'.nextRange = s.nextRange) : Data s' := by
  have hrange : ∀ u, ∀ id ∈ (s'.pc u).range, id ∈ (s.pc u).range := fun u id hid => by
    rw [hp] at hid
    by_cases hut : u = t
    · subst hut
      rw [Function.update_self] at hid
      exact hr id hid
    · rwa [Function.update_of_ne hut] at hid
  refine ⟨hs ▸ h.ok, ?_, ?_, ?_, ?_, ?_⟩
  · rw [hs, hna, hnr, hu, hx]
    exact h.area
  · rw [hna, hu]
    exact h.new
  · rw [hnr, hs]
    exact fun u id hid => h.held u id (hrange u id hid)
  · exact fun t u id h1 h2 => h.heldNe t u id (hrange t id h1) (hrange u id h2)
  · intro u nr a start stop hpc
    rw [hp] at hpc
    rw [hu, hs]
    by_cases hut : u = t
    · subst hut
      rw [Function.update_self] at hpc
      exact absurd hpc (hc nr a start stop)
    · rw [Function.update_of_ne hut] at hpc
      exact h.hole u nr a start stop hpc

/-- The area `a` changes, without its list. -/
theorem Data.setArea (h : Data s) (ha : asma ∈ s.shared.areas a)
    (hl : asma'.unpinnedList = asma.unpinnedList) (hf : asma'.file = none → asma.file = none) :
    Data { s with shared := s.shared.setArea a asma' } := by
  have hU : asma'.unpinned = asma.unpinned := by simp only [AshmemArea.unpinned, hl]
  have hP : asma'.purgedPages = asma.purgedPages := by simp only [AshmemArea.purgedPages, hl]
  obtain ⟨hlt, hok⟩ := h.area a asma ha
  refine ⟨h.ok.setArea (hl ▸ h.ok.list a asma ha) ?_, ?_, h.new, ?_, h.heldNe, ?_⟩
  · intro asma₂ h₂
    rw [Option.mem_def.mp ha] at h₂
    rw [hl, Option.some.inj h₂]
  · intro b asma₂ hb
    rcases Shared.mem_setArea.mp hb with ⟨rfl, rfl⟩ | ⟨-, hb⟩
    · exact ⟨hlt, hl ▸ hok.ids, fun hn => by rw [hl]; exact hok.file (hf hn),
        hU ▸ hok.ghost, hl ▸ hok.ends, hP ▸ hok.purged⟩
    · exact h.area b asma₂ hb
  · refine fun u id hid => ⟨(h.held u id hid).1, fun b asma₂ hb => ?_⟩
    rcases Shared.mem_setArea.mp hb with ⟨rfl, rfl⟩ | ⟨-, hb⟩
    · rw [hl]
      exact (h.held u id hid).2 b asma ha
    · exact (h.held u id hid).2 b asma₂ hb
  · intro u nr b start stop hpc p hp
    obtain ⟨h1, h2⟩ := h.hole u nr b start stop hpc p hp
    refine ⟨h1, fun asma₂ hb => ?_⟩
    rcases Shared.mem_setArea.mp hb with ⟨rfl, rfl⟩ | ⟨-, hb⟩
    · rw [hP]
      exact h2 asma ha
    · exact h2 asma₂ hb

theorem ashmemMmap_area (v : Nat) (env : MmapEnv) (asma : AshmemArea) (vma : Vma) :
    (ashmemMmap v env asma vma).2.1.unpinnedList = asma.unpinnedList ∧
      ((ashmemMmap v env asma vma).2.1.file = none → asma.file = none) := by
  have hfile : ∀ (asma : AshmemArea) (vma : Vma), (ashmemMmapFile env asma vma).2.1 = asma :=
    fun asma vma => by unfold ashmemMmapFile; split <;> rfl
  unfold ashmemMmap
  split
  · exact ⟨rfl, id⟩
  split
  · exact ⟨rfl, id⟩
  split
  · exact ⟨rfl, id⟩
  split
  · rw [hfile]
    exact ⟨rfl, id⟩
  split
  · exact ⟨rfl, id⟩
  · rw [hfile]
    exact ⟨rfl, fun h => by cases h⟩

theorem Data.open (h : Data s) (mode : Int) :
    Data { s with
      shared := s.shared.setArea s.nextArea (ashmemOpen mode), nextArea := s.nextArea + 1 } := by
  have hnone : ∀ asma, asma ∉ s.shared.areas s.nextArea := fun asma ha =>
    Nat.lt_irrefl _ (h.area _ asma ha).1
  refine ⟨h.ok.setArea ⟨Desc.nil, by simp [ashmemOpen], by simp [ashmemOpen], by simp [ashmemOpen],
    h.ok.nodup, by simp [ashmemOpen]⟩ fun asma ha => absurd ha (hnone asma), ?_, ?_, ?_, h.heldNe, ?_⟩
  · intro b asma₂ hb
    rcases Shared.mem_setArea.mp hb with ⟨rfl, rfl⟩ | ⟨-, hb⟩
    · have hn := h.new s.nextArea (Nat.le_refl _)
      refine ⟨Nat.lt_succ_self _, by simp [ashmemOpen], fun _ => rfl, fun p => ?_,
        by simp [ashmemOpen], fun p hp => absurd hp (hn p)⟩
      simp [hn p, AshmemArea.unpinned, ashmemOpen]
    · exact ⟨Nat.lt_succ_of_lt (h.area b asma₂ hb).1, (h.area b asma₂ hb).2⟩
  · exact fun b hb => h.new b (Nat.le_of_succ_le hb)
  · refine fun u id hid => ⟨(h.held u id hid).1, fun b asma₂ hb => ?_⟩
    rcases Shared.mem_setArea.mp hb with ⟨rfl, rfl⟩ | ⟨-, hb⟩
    · simp [ashmemOpen]
    · exact (h.held u id hid).2 b asma₂ hb
  · intro u nr b start stop hpc p hp
    obtain ⟨h1, h2⟩ := h.hole u nr b start stop hpc p hp
    refine ⟨h1, fun asma₂ hb => ?_⟩
    rcases Shared.mem_setArea.mp hb with ⟨rfl, rfl⟩ | ⟨-, hb⟩
    · exact absurd h1 (h.new s.nextArea (Nat.le_refl _) p)
    · exact h2 asma₂ hb

theorem Data.release (h : Data s) (ha : asma ∈ s.shared.areas a) :
    Data { s with shared := s.shared.release a asma } := by
  have hsub : ∀ b asma₂, asma₂ ∈ (s.shared.release a asma).areas b → asma₂ ∈ s.shared.areas b :=
    fun b asma₂ hb => (Shared.mem_release_areas.mp hb).2
  refine ⟨h.ok.release ha, fun b asma₂ hb => h.area b asma₂ (hsub b asma₂ hb), h.new, ?_,
    h.heldNe, ?_⟩
  · exact fun u id hid => ⟨(h.held u id hid).1, fun b asma₂ hb =>
      (h.held u id hid).2 b asma₂ (hsub b asma₂ hb)⟩
  · intro u nr b start stop hpc p hp
    obtain ⟨h1, h2⟩ := h.hole u nr b start stop hpc p hp
    exact ⟨h1, fun asma₂ hb => h2 asma₂ (hsub b asma₂ hb)⟩

theorem Data.ioctl (h : Data s) (hp : s.pc t = .idle) {cmd : PinCmd} {pin : AshmemPin} :
    Data { s.goto t (.lock a cmd pin s.nextRange) with nextRange := s.nextRange + 1 } := by
  -- the range of every thread is its old one, or the new one of `t`
  have hrange : ∀ u, ∀ id ∈ (Function.update s.pc t (.lock a cmd pin s.nextRange) u).range,
      (u = t ∧ id = s.nextRange) ∨ (u ≠ t ∧ id ∈ (s.pc u).range) := fun u id hid => by
    by_cases hut : u = t
    · subst hut
      rw [Function.update_self] at hid
      exact .inl ⟨rfl, (Option.some.inj hid).symm⟩
    · rw [Function.update_of_ne hut] at hid
      exact .inr ⟨hut, hid⟩
  refine ⟨h.ok, ?_, h.new, ?_, ?_, ?_⟩
  · intro b asma hb
    obtain ⟨hlt, hok⟩ := h.area b asma hb
    exact ⟨hlt, fun r hr => Nat.lt_succ_of_lt (hok.ids r hr), hok.file, hok.ghost, hok.ends, hok.purged⟩
  · intro u id hid
    rcases hrange u id hid with ⟨-, rfl⟩ | ⟨-, hid⟩
    · refine ⟨Nat.lt_succ_self _, fun b asma hb hm => ?_⟩
      obtain ⟨r, hr, he⟩ := List.mem_map.mp hm
      exact Nat.lt_irrefl _ (he ▸ (h.area b asma hb).2.ids r hr)
    · exact ⟨Nat.lt_succ_of_lt (h.held u id hid).1, (h.held u id hid).2⟩
  · intro u w id hu hw
    rcases hrange u id hu with ⟨rfl, rfl⟩ | ⟨-, hu'⟩
    · rcases hrange w _ hw with ⟨rfl, -⟩ | ⟨-, hw'⟩
      · rfl
      · exact absurd (h.held w _ hw').1 (Nat.lt_irrefl _)
    · rcases hrange w id hw with ⟨rfl, rfl⟩ | ⟨-, hw'⟩
      · exact absurd (h.held u _ hu').1 (Nat.lt_irrefl _)
      · exact h.heldNe u w id hu' hw'
  · intro u nr b start stop hpc
    by_cases hut : u = t
    · simp [hut] at hpc
    · simp only [Conc.goto_pc, Function.update_of_ne hut] at hpc
      exact h.hole u nr b start stop hpc

/-- A thread punches one page: it is unpinned, in a range marked purged. -/
theorem Data.punchPage (h : Data s) {p nr start stop : Nat} (hp : s.pc t = .punch nr a start stop)
    (hh : inHole start stop p) :
    Data { s with punched := fun b q => s.punched b q ∨ (b = a ∧ q = p) } := by
  refine ⟨h.ok, fun b asma hb => ?_, h.new, h.held, h.heldNe, h.hole⟩
  obtain ⟨hlt, hok⟩ := h.area b asma hb
  refine ⟨hlt, hok.ids, hok.file, hok.ghost, hok.ends, fun q hq hx => ?_⟩
  rcases hx with hx | ⟨rfl, rfl⟩
  · exact hok.purged q hq hx
  · exact (h.hole t nr b start stop hp q hh).2 asma hb

/-- The shrinker takes a range: its pages become those of a hole. -/
theorem Data.take (h : Data s) {nr : Nat} {ref : RangeRef} {rest : List RangeRef}
    {range : AshmemRange} (hp : s.pc t = .scan nr) (hl : s.shared.lru.list = ref :: rest)
    (hd : s.shared.deref ref = some (asma, range)) :
    Data { s.goto t (.punch nr ref.asma (range.pgstart * pageSize % 2 ^ 64)
        ((range.pgend + 1) % 2 ^ 64 * pageSize % 2 ^ 64)) with
      shared := s.shared.purge ref.asma asma range
      inflight := s.inflight + 1
      mutex := none } := by
  obtain ⟨asma₁, r₁, hd₁, ha, hr, -, hpr⟩ := h.ok.deref ref (by simp [hl])
  rw [hd] at hd₁
  obtain ⟨rfl, rfl⟩ : asma = asma₁ ∧ range = r₁ := by simpa using hd₁
  obtain ⟨l', st', heq, hok', hcov, hsub, hids⟩ := Shared.purge_spec h.ok ha hr hpr
  obtain ⟨hlt, hok⟩ := h.area _ asma ha
  have hU : { asma with unpinnedList := l' }.unpinned = asma.unpinned := hcov
  rw [heq]
  refine ⟨hok', ?_, h.new, ?_, ?_, ?_⟩
  · intro b asma₂ hb
    rcases Shared.mem_setList.mp hb with ⟨rfl, rfl⟩ | ⟨-, hb⟩
    · refine ⟨hlt, fun r hr => ?_, fun hf => ?_, hU ▸ hok.ghost, fun r hr => ?_,
        fun p hp hx => hsub (.inl (hok.purged p hp hx))⟩
      · obtain ⟨y, hy, he, -⟩ := hids r hr
        exact he ▸ hok.ids y hy
      · have := hok.file hf
        rw [this] at hr
        cases hr
      · obtain ⟨y, hy, -, h1, h2⟩ := hids r hr
        have := hok.ends y hy
        exact ⟨h1 ▸ this.1, h2 ▸ this.2⟩
    · exact h.area b asma₂ hb
  · intro u id hid
    have hid' : id ∈ (s.pc u).range := by
      by_cases hut : u = t
      · subst hut
        simp [Pc.range] at hid
      · simpa [hut] using hid
    refine ⟨(h.held u id hid').1, fun b asma₂ hb => ?_⟩
    rcases Shared.mem_setList.mp hb with ⟨rfl, rfl⟩ | ⟨-, hb⟩
    · intro hm
      obtain ⟨r', hr', rfl⟩ := List.mem_map.mp hm
      obtain ⟨y, hy, he, -⟩ := hids r' hr'
      exact (h.held u _ hid').2 _ asma ha (he ▸ List.mem_map_of_mem hy)
    · exact (h.held u id hid').2 b asma₂ hb
  · intro u w id hu hw
    by_cases hut : u = t
    · subst hut
      simp [Pc.range] at hu
    by_cases hwt : w = t
    · subst hwt
      simp [Pc.range] at hw
    · exact h.heldNe u w id (by simpa [hut] using hu) (by simpa [hwt] using hw)
  · intro u nr' b start stop hpc p hin
    by_cases hut : u = t
    · subst hut
      simp only [Conc.goto_pc, Function.update_self, Pc.punch.injEq] at hpc
      obtain ⟨-, rfl, rfl, rfl⟩ := hpc
      have hrange := inHole_range (hok.ends range hr) hin
      refine ⟨(hok.ghost p).mpr ⟨range, hr, hrange⟩, fun asma₂ hb => ?_⟩
      rcases Shared.mem_setList.mp hb with ⟨-, rfl⟩ | ⟨hne, -⟩
      · exact hsub (.inr hrange)
      · exact absurd rfl hne
    · simp only [Conc.goto_pc, Function.update_of_ne hut] at hpc
      obtain ⟨h1, h2⟩ := h.hole u nr' b start stop hpc p hin
      refine ⟨h1, fun asma₂ hb => ?_⟩
      rcases Shared.mem_setList.mp hb with ⟨rfl, rfl⟩ | ⟨-, hb⟩
      · exact hsub (.inl (h2 asma ha))
      · exact h2 asma₂ hb

/-- The body of an ioctl of `t` replaces the list of `a`; no hole is in flight. -/
theorem Data.setList (h : Data s) (hfl : ∀ u, (s.pc u).inFlight = false) {range : RangeId}
    (hr : range ∈ (s.pc t).range) (ha : asma ∈ s.shared.areas a)
    (hok : (s.shared.setList a asma l' st').Ok)
    (hids : ∀ r ∈ l', r.id ∈ asma.unpinnedList.map AshmemRange.id ∨ r.id = range)
    (harea : AreaOk s.nextRange (s'.unpinned a) (s'.punched a) { asma with unpinnedList := l' })
    (hp : s'.pc = Function.update s.pc t .idle)
    (hs : s'.shared = s.shared.setList a asma l' st')
    (hu : ∀ b, b ≠ a → s'.unpinned b = s.unpinned b ∧ s'.punched b = s.punched b)
    (hna : s'.nextArea = s.nextArea) (hnr : s'.nextRange = s.nextRange) : Data s' := by
  have hlt := (h.area a asma ha).1
  have hrange : ∀ u, ∀ id ∈ (s'.pc u).range, u ≠ t ∧ id ∈ (s.pc u).range := fun u id hid => by
    rw [hp] at hid
    by_cases hut : u = t
    · subst hut
      simp [Pc.range] at hid
    · exact ⟨hut, by rwa [Function.update_of_ne hut] at hid⟩
  refine ⟨hs ▸ hok, ?_, ?_, ?_, ?_, ?_⟩
  · intro b asma₂ hb
    rw [hs] at hb
    rw [hna, hnr]
    rcases Shared.mem_setList.mp hb with ⟨rfl, rfl⟩ | ⟨hne, hb⟩
    · exact ⟨hlt, harea⟩
    · rw [(hu b hne).1, (hu b hne).2]
      exact h.area b asma₂ hb
  · intro b hb p
    rw [hna] at hb
    have hne : b ≠ a := fun he => absurd (he ▸ hb) (Nat.not_le_of_lt hlt)
    rw [(hu b hne).1]
    exact h.new b hb p
  · intro u id hid
    obtain ⟨hut, hid⟩ := hrange u id hid
    rw [hnr, hs]
    refine ⟨(h.held u id hid).1, fun b asma₂ hb hm => ?_⟩
    rcases Shared.mem_setList.mp hb with ⟨rfl, rfl⟩ | ⟨-, hb⟩
    · obtain ⟨r, hrm, rfl⟩ := List.mem_map.mp hm
      rcases hids r hrm with hin | heq
      · exact (h.held u _ hid).2 b asma ha hin
      · exact hut (h.heldNe u t range (heq ▸ hid) hr)
    · exact (h.held u id hid).2 b asma₂ hb hm
  · intro u w id hu hw
    exact h.heldNe u w id (hrange u id hu).2 (hrange w id hw).2
  · intro u nr b start stop hpc
    rw [hp] at hpc
    by_cases hut : u = t
    · simp [hut] at hpc
    · rw [Function.update_of_ne hut] at hpc
      have := hfl u
      rw [hpc] at this
      cases this

/-- The body of `ASHMEM_PIN` on `lo` to `hi`. -/
theorem AreaOk.pin {lo hi : Nat} {U P : Nat → Prop} {nextRange range : RangeId} {ret : Nat}
    {st : Pinning} (h : AreaOk nextRange U P asma) (hr : range < nextRange)
    (hends : lo < 2 ^ 20 ∧ (hi < 2 ^ 20 ∨ hi = 2 ^ 64 - 1)) (hfile : asma.file ≠ none)
    (hpost : PinPost a lo hi range asma.unpinnedList st ret l' st')
    (hsub : asma.purgedPages \ Set.Icc lo hi ⊆ { asma with unpinnedList := l' }.purgedPages) :
    AreaOk nextRange (fun p => U p ∧ ¬ (lo ≤ p ∧ p ≤ hi)) P { asma with unpinnedList := l' } where
  ids r hrm := by
    rcases hpost.ids r hrm with hin | rfl
    · obtain ⟨y, hy, he⟩ := List.mem_map.mp hin
      exact he ▸ h.ids y hy
    · exact hr
  file hn := absurd hn hfile
  ghost p := by
    show _ ↔ p ∈ cover AshmemRange.pgstart AshmemRange.pgend l'
    rw [hpost.cover, h.ghost]
    rfl
  ends r hrm := by
    obtain ⟨x, hx, -, -, -, h1, h2⟩ := hpost.sub r hrm
    obtain ⟨hx1, hx2⟩ := h.ends x hx
    have hb := hpost.ok.bound r hrm
    have hn := hpost.ok.desc.nonempty r hrm
    constructor <;> omega
  purged p hp hx := hsub ⟨h.purged p hp.1 hx, fun hin => hp.2 hin⟩

/-- The body of `ASHMEM_UNPIN` on `lo` to `hi`. -/
theorem AreaOk.unpin {lo hi : Nat} {U P : Nat → Prop} {nextRange range : RangeId} {st : Pinning}
    (h : AreaOk nextRange U P asma) (hr : range < nextRange)
    (hends : lo < 2 ^ 20 ∧ (hi < 2 ^ 20 ∨ hi = 2 ^ 64 - 1)) (hfile : asma.file ≠ none)
    (hpost : UnpinPost a lo hi ashmemNotPurged range asma.unpinnedList st l' st')
    (hsub : asma.purgedPages ⊆ { asma with unpinnedList := l' }.purgedPages) :
    AreaOk nextRange (fun p => U p ∨ (lo ≤ p ∧ p ≤ hi))
      (fun p => P p ∧ ¬ (¬ U p ∧ lo ≤ p ∧ p ≤ hi)) { asma with unpinnedList := l' } where
  ids r hrm := by
    rcases hpost.ids r hrm with hin | rfl
    · obtain ⟨y, hy, he⟩ := List.mem_map.mp hin
      exact he ▸ h.ids y hy
    · exact hr
  file hn := absurd hn hfile
  ghost p := by
    show _ ↔ p ∈ cover AshmemRange.pgstart AshmemRange.pgend l'
    rw [hpost.cover, h.ghost]
    rfl
  ends r hrm := by
    obtain ⟨h1, h2⟩ := hpost.ends r hrm
    constructor
    · rcases h1 with h1 | ⟨x, hx, h1⟩
      · omega
      · exact h1 ▸ (h.ends x hx).1
    · rcases h2 with h2 | ⟨x, hx, h2⟩
      · exact h2 ▸ hends.2
      · exact h2 ▸ (h.ends x hx).2
  purged p hp hx := by
    by_cases hU : U p
    · exact hsub (h.purged p hU hx.1)
    · exact absurd ⟨hU, hp.resolve_left hU⟩ hx.2

theorem Data.run (h : Data s) (hc : Ctl s) {cmd : PinCmd} {pin : AshmemPin} {range : RangeId}
    {ret : Except Errno Nat} {S : Shared} (hp : s.pc t = .body a cmd pin range)
    (ha : asma ∈ s.shared.areas a)
    (heq : ashmemPinUnpin s.shared a asma cmd pin range = some (ret, S))
    (hint : asma.file ≠ none → ∀ i ∈ pinInterval asma pin, i.1 ≤ i.2) :
    Data { (s.requested a asma cmd pin).goto t .idle with shared := S, mutex := none } := by
  have hfl := hc.not_inFlight hp
  have hrg : range ∈ (s.pc t).range := by rw [hp]; rfl
  obtain ⟨hlt, hid⟩ := h.held t range hrg
  have hok := (h.area a asma ha).2
  have hsame : Data { s.goto t .idle with mutex := none } :=
    h.goto (t := t) (c := .idle) (by simp [Pc.range]) (by simp) rfl rfl rfl rfl rfl rfl
  simp only [ashmemPinUnpin, Conc.requested] at heq ⊢
  split at heq
  · rename_i hf
    rw [if_pos hf]
    cases heq
    exact hsame
  rename_i hf
  rw [if_neg hf]
  have hfile : asma.file ≠ none := fun hn => hf (by simp [hn])
  cases hi : pinInterval asma pin with
  | none =>
    rw [hi] at heq
    cases heq
    exact hsame
  | some i =>
    obtain ⟨lo, hi'⟩ := i
    have hle : lo ≤ hi' := hint hfile _ hi
    have hends := pinInterval_ends hi hle
    rw [hi] at heq
    cases cmd with
    | getPinStatus =>
      cases heq
      exact hsame
    | pin =>
      obtain ⟨ret', l', st', heq', hok', hpost, hsub, -⟩ := Shared.pin_spec h.ok ha hid hle
      simp only [heq', Option.map_some, Option.some.injEq, Prod.mk.injEq] at heq
      obtain ⟨-, rfl⟩ := heq
      refine h.setList hfl hrg ha hok' hpost.ids ?_ rfl rfl (fun b hne => ?_) rfl rfl
      · simpa [Conc.request] using hok.pin hlt hends hfile hpost hsub
      · simp [Conc.request, hne]
    | unpin =>
      obtain ⟨l', st', heq', hok', hpost, hsub⟩ :=
        Shared.unpin_spec h.ok ha hid hle (by omega)
      simp only [heq', Option.map_some, Option.some.injEq, Prod.mk.injEq] at heq
      obtain ⟨-, rfl⟩ := heq
      refine h.setList hfl hrg ha hok' hpost.ids ?_ rfl rfl (fun b hne => ?_) rfl rfl
      · simpa [Conc.request] using hok.unpin hlt hends hfile hpost hsub
      · simp [Conc.request, hne]

theorem Data.step (h : Data s) (hc : Ctl s) (hst : Step v s x s')
    (hi : ∀ t a cmd pin range, x = .run t → s.pc t = .body a cmd pin range →
      ∀ asma ∈ s.shared.areas a, asma.file ≠ none → ∀ i ∈ pinInterval asma pin, i.1 ≤ i.2) :
    Data s' := by
  cases hst with
  | «open» mode hm => exact h.open mode
  | setSize a size hm ha hs =>
    simp only [ashmemSetSize] at hs
    split at hs
    · cases hs
      exact h.setArea ha rfl id
    · cases hs
  | mmap a env vma hm ha =>
    obtain ⟨h1, h2⟩ := ashmemMmap_area v env _ vma
    exact h.setArea ha h1 h2
  | release a hm ha hu => exact h.release ha
  | ioctl t a cmd pin hp ha => exact h.ioctl hp
  | lock t hp hm =>
    exact h.goto (t := t) (by rw [hp]; exact fun _ => id) (by simp) rfl rfl rfl rfl rfl rfl
  | wake t hp hi =>
    exact h.goto (t := t) (by rw [hp]; exact fun _ => id) (by simp) rfl rfl rfl rfl rfl rfl
  | run t hp ha heq => exact h.run hc hp ha heq (hi t _ _ _ _ rfl hp _ ha)
  | shrink t nr hp hm =>
    exact h.goto (t := t) (by simp [Pc.range]) (by simp) rfl rfl rfl rfl rfl rfl
  | takeNone t hp hl =>
    exact h.goto (t := t) (by simp [Pc.range]) (by simp) rfl rfl rfl rfl rfl rfl
  | take t hp hl hd hf => exact h.take hp hl hd
  | punchPage t p hp hh => exact h.punchPage hp hh
  | punchEnd t hp =>
    exact h.goto (t := t) (by simp [Pc.range]) (by simp) rfl rfl rfl rfl rfl rfl
  | decInflight t hp =>
    exact h.goto (t := t) (by simp [Pc.range]) (by simp) rfl rfl rfl rfl rfl rfl
  | relock t hp hm hn =>
    exact h.goto (t := t) (by simp [Pc.range]) (by simp) rfl rfl rfl rfl rfl rfl
  | relockDone t hp hm hn =>
    exact h.goto (t := t) (by simp [Pc.range]) (by simp) rfl rfl rfl rfl rfl rfl
  | giveUp t hp =>
    exact h.goto (t := t) (by simp [Pc.range]) (by simp) rfl rfl rfl rfl rfl rfl

end Pages

/-! ## The result -/

theorem concSys_inv {v : Nat} {s : Conc} (h : (concSys v).ReachIf IntervalOk s) :
    Ctl s ∧ Data s := by
  refine h.inv (I := fun s => Ctl s ∧ Data s) ?_ ?_
  · rintro s rfl
    exact ⟨⟨by simp [Conc.start, Pc.holds], by simp [Conc.start, Pc.inFlight], by simp [Conc.start]⟩,
      ⟨⟨by simp [Conc.start], by simp [Conc.start], by simp [Conc.start]⟩, by simp [Conc.start],
        by simp [Conc.start], by simp [Conc.start, Pc.range], by simp [Conc.start, Pc.range],
        by simp [Conc.start]⟩⟩
  · rintro s x s' ⟨hc, hd⟩ hi hst
    refine ⟨hc.step hst, hd.step hc hst ?_⟩
    rintro t a cmd pin range rfl hp asma ha -
    exact hi a cmd pin range hp asma ha

/-- What `ASHMEM_PIN` reports if the body of `t` runs now: if it returns `ASHMEM_NOT_PURGED`, no
page of its interval that `which` selects has been punched since it became unpinned. -/
def PinReports (which : Conc → AreaId → Nat → Prop) (s : Conc) : Prop :=
  ∀ t a pin range, s.pc t = .body a .pin pin range → ∀ asma ∈ s.shared.areas a,
    ∀ lo hi, pinInterval asma pin = some (lo, hi) → lo ≤ hi →
    ∀ S, ashmemPinUnpin s.shared a asma .pin pin range = some (.ok ashmemNotPurged, S) →
    ∀ p, lo ≤ p → p ≤ hi → which s a p → ¬ s.punched a p

/-- A hole is open only over pages that are unpinned now. -/
def HolesUnpinned (s : Conc) : Prop :=
  ∀ t nr a start stop, s.pc t = .punch nr a start stop → ∀ p, inHole start stop p → s.unpinned a p

/-- No hole is in flight while the body of an ioctl runs. -/
def NoHoleInBody (s : Conc) : Prop :=
  ∀ t a cmd pin range, s.pc t = .body a cmd pin range →
    ∀ u nr b start stop, s.pc u ≠ .punch nr b start stop

section Run

variable {v : Nat} {s : Conc} {t : Tid} {a : AreaId} {asma : AshmemArea} {cmd : PinCmd}
  {pin : AshmemPin} {S : Shared} {ret : Except Errno Nat}

/-- Thread `t` calls the ioctl and gets to its body. -/
def Conc.call (s : Conc) (t : Tid) (a : AreaId) (cmd : PinCmd) (pin : AshmemPin) : Conc :=
  { s with
    pc := Function.update (Function.update (Function.update s.pc t (.lock a cmd pin s.nextRange)) t
      (.wait a cmd pin s.nextRange)) t (.body a cmd pin s.nextRange)
    mutex := some t
    nextRange := s.nextRange + 1 }

theorem Conc.goto_self (s : Conc) (t : Tid) (c : Pc) : (s.goto t c).pc t = c := Function.update_self ..

theorem Conc.goto_of_ne {u : Tid} (s : Conc) (c : Pc) (h : u ≠ t) : (s.goto t c).pc u = s.pc u :=
  Function.update_of_ne h ..

theorem Conc.call_self (s : Conc) (t : Tid) (a : AreaId) (cmd : PinCmd) (pin : AshmemPin) :
    (s.call t a cmd pin).pc t = .body a cmd pin s.nextRange := Function.update_self ..

/-- A step that is neither the body of an ioctl nor the end of a hole, and maps the first page only. -/
def Act.plain : Act → Bool
  | .run _ | .punchEnd _ => false
  | .mmap _ _ vma => vma == ⟨0, 4096, 0⟩
  | _ => true

variable {C : Conc → Act → Prop}

theorem intervalOk_plain (s : Conc) (x : Act) (h : x.plain = true) : IntervalOk s x := by
  cases x with
  | run t => cases h
  | _ => trivial

theorem reach_call (cmd : PinCmd) (pin : AshmemPin) (hC : ∀ s x, x.plain = true → C s x)
    (h : (concSys v).ReachIf C s) (hp : s.pc t = .idle) (hm : s.mutex = none) (hi : s.inflight = 0)
    (ha : (s.shared.areas a).isSome) : (concSys v).ReachIf C (s.call t a cmd pin) := by
  have h1 := h.step (a := Act.ioctl t a cmd pin) (hC _ _ rfl) (.ioctl t a cmd pin hp ha)
  have h2 := h1.step (a := Act.lock t) (hC _ _ rfl) (.lock t (Function.update_self ..) hm)
  exact h2.step (a := Act.wake t) (hC _ _ rfl) (.wake t (Function.update_self ..) hi)

theorem reach_run (cmd : PinCmd) (pin : AshmemPin) (asma : AshmemArea) (ret : Except Errno Nat)
    (hC : ∀ s x, x.plain = true → C s x) (h : (concSys v).ReachIf C s) (hp : s.pc t = .idle)
    (hm : s.mutex = none) (hi : s.inflight = 0) (ha : asma ∈ s.shared.areas a)
    (heq : ashmemPinUnpin s.shared a asma cmd pin s.nextRange = some (ret, S))
    (hrun : C (s.call t a cmd pin) (.run t)) :
    (concSys v).ReachIf C
      { ((s.call t a cmd pin).requested a asma cmd pin).goto t .idle with
        shared := S, mutex := none } := by
  have h1 := reach_call cmd pin hC h hp hm hi (Option.isSome_iff_exists.mpr ⟨_, ha⟩)
  have hb := s.call_self t a cmd pin
  exact h1.step (a := Act.run t) hrun (.run t hb ha heq)

/-- The condition on the body of the ioctl that `t` has called. -/
theorem call_body {P : AreaId → PinCmd → AshmemPin → AshmemArea → Prop} (asma : AshmemArea)
    (ha : asma ∈ s.shared.areas a) (hP : P a cmd pin asma) :
    ∀ a' cmd' pin' range, (s.call t a cmd pin).pc t = .body a' cmd' pin' range →
      ∀ asma' ∈ s.shared.areas a', P a' cmd' pin' asma' := by
  intro a' cmd' pin' range' hb' asma' ha'
  have hb := s.call_self t a cmd pin
  rw [hb] at hb'
  cases hb'
  have : asma = asma' := Option.some.inj (ha.symm.trans ha')
  exact this ▸ hP

end Run

/-- An area of one page with its backing file. -/
def onePage : AshmemArea :=
  { ashmemOpen 0 with size := 4096, file := some ⟨"dev/ashmem", 4096, 0⟩ }

/-- The first page of an area. -/
def firstPage : AshmemPin := ⟨0, 4096⟩

theorem pinInterval_onePage (l : List AshmemRange) :
    pinInterval { onePage with unpinnedList := l } firstPage = some (0, 0) :=
  (by decide : pinInterval { onePage with unpinnedList := [] } firstPage = some (0, 0))

theorem pin_onePage (S : Shared) (range : RangeId) :
    ashmemPinUnpin S 0 { onePage with unpinnedList := [] } .pin firstPage range =
      some (.ok ashmemNotPurged, S.setList 0 onePage [] ⟨some range, S.lru⟩) := by
  unfold ashmemPinUnpin
  rw [if_neg (by decide), pinInterval_onePage]
  rfl

/-- An area that was opened, as the area 0, and mapped with a size. -/
theorem reach_mapped {C : Conc → Act → Prop} (size : Nat) (asma : AshmemArea)
    (hC : ∀ s x, x.plain = true → C s x)
    (hs : ashmemSetSize (ashmemOpen 0) size = .ok { ashmemOpen 0 with size := size })
    (hm : (ashmemMmap (kernelVersion 6 6 0) ⟨none, none⟩ { ashmemOpen 0 with size := size }
      ⟨0, 4096, 0⟩).2.1 = asma) :
    (concSys (kernelVersion 6 6 0)).ReachIf C
      { Conc.start with
        shared := ((Conc.start.shared.setArea 0 (ashmemOpen 0)).setArea 0
          { ashmemOpen 0 with size := size }).setArea 0 asma
        nextArea := 1 } := by
  have h0 : (concSys (kernelVersion 6 6 0)).ReachIf C Conc.start := .init rfl
  have h1 := h0.step (a := Act.open 0) (hC _ _ rfl) (.open 0 rfl)
  have h2 := h1.step (a := Act.setSize 0 size) (hC _ _ rfl)
    (.setSize 0 size rfl (show ashmemOpen 0 ∈ _ from rfl) hs)
  have h3 := h2.step (a := Act.mmap 0 ⟨none, none⟩ ⟨0, 4096, 0⟩) (hC _ _ rfl)
    (.mmap 0 ⟨none, none⟩ ⟨0, 4096, 0⟩ rfl (show { ashmemOpen 0 with size := size } ∈ _ from rfl))
  rw [hm] at h3
  exact h3

/-- `onePage`, open as the area 0. -/
theorem reach_onePage {C : Conc → Act → Prop} (hC : ∀ s x, x.plain = true → C s x) :
    (concSys (kernelVersion 6 6 0)).ReachIf C
      { Conc.start with
        shared := ((Conc.start.shared.setArea 0 (ashmemOpen 0)).setArea 0
          { ashmemOpen 0 with size := 4096 }).setArea 0 onePage
        nextArea := 1 } :=
  reach_mapped 4096 onePage hC rfl (by decide)

/-- `onePage` is open as the area 0, with its page unpinned, and no call is under way. -/
structure OnePageUnpinned (s : Conc) : Prop where
  idle : ∀ t, s.pc t = .idle
  mutex : s.mutex = none
  inflight : s.inflight = 0
  nextRange : s.nextRange = 1
  areas : s.shared.areas 0 = some { onePage with unpinnedList := [⟨0, 0, 0, 0, 0⟩] }
  lru : s.shared.lru = ⟨[⟨0, 0⟩], 1⟩
  unpinned : s.unpinned 0 0

theorem OnePageUnpinned.deref {s : Conc} (h : OnePageUnpinned s) : s.shared.deref ⟨0, 0⟩ =
    some ({ onePage with unpinnedList := [⟨0, 0, 0, 0, 0⟩] }, ⟨0, 0, 0, 0, 0⟩) := by
  simp only [Shared.deref, h.areas]
  rfl

theorem reach_onePage_unpinned {C : Conc → Act → Prop} (hC : ∀ s x, x.plain = true → C s x)
    (hrun : ∀ s t, (∀ a cmd pin range, s.pc t = .body a cmd pin range →
      ∀ asma ∈ s.shared.areas a, asma = onePage ∧ pin = firstPage) → C s (.run t)) :
    ∃ s, (concSys (kernelVersion 6 6 0)).ReachIf C s ∧ OnePageUnpinned s := by
  have hun : ashmemUnpinFrom 0 [] 0 0 ashmemNotPurged ⟨some 0, ⟨[], 0⟩⟩ =
      some ([⟨0, 0, 0, 0, 0⟩], ⟨none, ⟨[⟨0, 0⟩], 1⟩⟩) := by rw [ashmemUnpinFrom]; rfl
  have hi : pinInterval onePage firstPage = some (0, 0) := pinInterval_onePage []
  have h := reach_run (t := 0) (a := 0) .unpin firstPage onePage (.ok 0) hC
    (S := Shared.setList _ 0 onePage [⟨0, 0, 0, 0, 0⟩] ⟨none, ⟨[⟨0, 0⟩], 1⟩⟩)
    (reach_onePage hC) rfl rfl rfl rfl (by
      unfold ashmemPinUnpin
      rw [if_neg (by decide), hi]
      simp only [Shared.unpin, ashmemUnpin]
      show Option.map _ (((ashmemUnpinFrom 0 [] 0 0 ashmemNotPurged
        ⟨some 0, ⟨[], 0⟩⟩).bind _).bind _) = _
      rw [hun]
      rfl) (hrun _ _ (call_body onePage rfl ⟨rfl, rfl⟩))
  refine ⟨_, h, fun t => ?_, rfl, rfl, rfl, rfl, rfl, .inr ⟨rfl, Nat.le_refl 0, Nat.le_refl 0⟩⟩
  by_cases ht : t = 0
  · subst ht
    rfl
  · simp [Conc.requested_ctl.1, Conc.call, ht, Conc.start]

/-- The page of `onePage` is unpinned, and a scan has opened the hole over it. -/
theorem reach_onePage_hole : ∃ s, (concSys (kernelVersion 6 6 0)).ReachIf IntervalOk s ∧
    s.pc 0 = .idle ∧ s.pc 1 = .punch 1 0 0 4096 ∧ s.mutex = none ∧ s.inflight = 1 ∧ s.nextRange = 1 ∧
    s.shared.areas 0 = some { onePage with unpinnedList := [⟨0, 0, 0, 0, 1⟩] } ∧
    s.shared.lru = ⟨[], 0⟩ ∧ s.unpinned 0 0 := by
  have hi : pinInterval onePage firstPage = some (0, 0) := pinInterval_onePage []
  obtain ⟨s, h, hs⟩ := reach_onePage_unpinned intervalOk_plain
    fun s t hbody a cmd pin range hp asma ha i hmem => by
      obtain ⟨rfl, rfl⟩ := hbody a cmd pin range hp asma ha
      rw [hi] at hmem
      cases hmem
      exact le_rfl
  have h₁ := h.step (a := Act.shrink 1 1) trivial (.shrink 1 1 (hs.idle 1) hs.mutex)
  have h₂ := h₁.step (a := Act.take 1) trivial (.take 1 (s.goto_self 1 (.scan 1))
    (show s.shared.lru.list = [⟨0, 0⟩] by rw [hs.lru]) hs.deref rfl)
  refine ⟨_, h₂, ?_, ?_, rfl, ?_, hs.nextRange, ?_, ?_, hs.unpinned⟩
  · simp [Conc.goto, hs.idle]
  · simp [Conc.goto, pageSize]
  · simp [Conc.goto, hs.inflight]
  · rfl
  · simp [Shared.purge, Shared.setList, lruDel, hs.lru, rangeSize, AshmemRange.ref]

/-- The page of `onePage` is unpinned and punched, and the scan is over. -/
theorem reach_onePage_purged : ∃ s, (concSys (kernelVersion 6 6 0)).ReachIf IntervalOk s ∧
    s.pc 0 = .idle ∧ s.mutex = none ∧ s.inflight = 0 ∧ s.nextRange = 1 ∧
    s.shared.areas 0 = some { onePage with unpinnedList := [⟨0, 0, 0, 0, 1⟩] } ∧
    s.shared.lru = ⟨[], 0⟩ ∧ s.unpinned 0 0 ∧ s.punched 0 0 := by
  obtain ⟨s, h, h0, h1, hm, hi, hr, ha, hl, hu⟩ := reach_onePage_hole
  have hp := h.step (a := Act.punchPage 1 0) trivial (.punchPage 1 0 h1 (by unfold inHole; decide))
  have he := hp.step (a := Act.punchEnd 1) trivial (.punchEnd 1 h1)
  have hd := he.step (a := Act.decInflight 1) trivial (.decInflight 1 (Conc.goto_self ..))
  have hk := hd.step (a := Act.relock 1) trivial
    (.relockDone 1 (show _ = Pc.relock 1 by simp [Conc.goto]) hm rfl)
  refine ⟨_, hk, ?_, hm, ?_, hr, ha, hl, hu, .inr ⟨rfl, rfl⟩⟩
  · rw [Conc.goto_of_ne _ _ zero_ne_one]
    show ((Conc.goto _ 1 (.punched 1)).goto 1 (.relock 1)).pc 0 = .idle
    rw [Conc.goto_of_ne _ _ zero_ne_one, Conc.goto_of_ne _ _ zero_ne_one]
    exact h0
  · show s.inflight - 1 = 0
    rw [hi]

/-- **Ashmem purges only unpinned pages, and a pin reports the purges of the pages that it finds
unpinned**, in every interleaving whose requests are intervals of pages. -/
theorem concSys_safe {v : Nat} {s : Conc} (h : (concSys v).ReachIf IntervalOk s) :
    HolesUnpinned s ∧ NoHoleInBody s ∧ PinReports Conc.unpinned s := by
  obtain ⟨hc, hd⟩ := concSys_inv h
  refine ⟨fun t nr a start stop hp p hh => (hd.hole t nr a start stop hp p hh).1, ?_, ?_⟩
  · intro t a cmd pin range hp u nr b start stop hu
    have := hc.not_inFlight hp u
    rw [hu] at this
    cases this
  · intro t a pin range hp asma ha lo hi hint hle S heq p hlo hhi hU hx
    have hok := (hd.area a asma ha).2
    obtain ⟨ret, l', st', heq', -, -, -, hdis⟩ :=
      Shared.pin_spec hd.ok ha (hd.held t range (by rw [hp]; rfl)).2 hle
    simp only [ashmemPinUnpin, hint, heq'] at heq
    split at heq
    · cases heq
    simp only [Option.map_some, Option.some.injEq, Prod.mk.injEq, Except.ok.injEq] at heq
    exact Set.disjoint_left.mp (hdis heq.1) (hok.purged p hU hx) ⟨hlo, hhi⟩

/-- While the hole over the page is open the page is unpinned; and once it is punched, a pin of it does
not say `ASHMEM_NOT_PURGED`. -/
theorem concSys_safe_onePage :
    (∃ s, (concSys (kernelVersion 6 6 0)).ReachIf IntervalOk s ∧ s.pc 1 = .punch 1 0 0 4096 ∧
      s.unpinned 0 0) ∧
    ∃ s, (concSys (kernelVersion 6 6 0)).ReachIf IntervalOk s ∧ s.pc 0 = .body 0 .pin firstPage 1 ∧
      s.unpinned 0 0 ∧ s.punched 0 0 ∧ ∀ S, ashmemPinUnpin s.shared 0
        { onePage with unpinnedList := [⟨0, 0, 0, 0, 1⟩] } .pin firstPage 1 ≠
          some (.ok ashmemNotPurged, S) := by
  constructor
  · obtain ⟨s, h, -, hp, -⟩ := reach_onePage_hole
    exact ⟨s, h, hp, (concSys_safe h).1 1 1 0 0 4096 hp 0 (by unfold inHole; decide)⟩
  · obtain ⟨s, h, h0, hm, hi, hr, ha, -, hu, hx⟩ := reach_onePage_purged
    have hc := reach_call (t := 0) (a := 0) .pin firstPage intervalOk_plain h h0 hm hi (by simp [ha])
    have hb : (s.call 0 0 .pin firstPage).pc 0 = .body 0 .pin firstPage 1 := hr ▸ Conc.call_self ..
    exact ⟨_, hc, hb, hu, hx, fun S he => (concSys_safe hc).2.2 0 0 firstPage 1 hb _ ha 0 0
      (pinInterval_onePage _) le_rfl S he 0 le_rfl le_rfl hu hx⟩

/-- A pin of a page that is pinned already says `ASHMEM_NOT_PURGED`, although the page was punched
since it was last unpinned: unpin, purge, pin (which reports the purge), and pin again. -/
theorem pinReports_fails :
    ¬ ∀ v s, (concSys v).ReachIf IntervalOk s → PinReports (fun _ _ _ => True) s := by
  intro hall
  obtain ⟨s, h, h0, hm, hi, hr, ha, hl, -, hx⟩ := reach_onePage_purged
  -- pin, with the answer `ASHMEM_WAS_PURGED`
  have hpin : ashmemPinUnpin s.shared 0 { onePage with unpinnedList := [⟨0, 0, 0, 0, 1⟩] } .pin firstPage
      s.nextRange = some (.ok ashmemWasPurged, s.shared.setList 0 onePage [] ⟨some 1, ⟨[], 0⟩⟩) := by
    unfold ashmemPinUnpin
    rw [if_neg (by decide), pinInterval_onePage, hr]
    simp only [Shared.pin, hl]
    rfl
  have h₁ := reach_run (t := 0) (a := 0) .pin firstPage _ _ intervalOk_plain h h0 hm hi ha hpin
    (call_body _ ha (by rw [pinInterval_onePage]; rintro _ ⟨⟩; exact le_rfl))
  -- pin again
  have h₂ := reach_call (t := 0) (a := 0) .pin firstPage intervalOk_plain h₁
    (by simp [Conc.goto]) rfl hi rfl
  refine hall _ _ h₂ 0 0 firstPage _ (Conc.call_self ..) { onePage with unpinnedList := [] } rfl 0 0
    (pinInterval_onePage []) le_rfl _ (pin_onePage _ _) 0 le_rfl le_rfl trivial ?_
  exact hx

end Redroid.Ashmem
