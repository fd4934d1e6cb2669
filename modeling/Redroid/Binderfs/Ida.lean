import Redroid.Binderfs.Fs

/-!
# The id allocator of kernels before 4.19 (`idr.c`)

`ida_alloc_range` on top of `ida_get_new_above` and `ida_pre_get`. It looks for `-EAGAIN` in the variable
for the id, and `ida_get_new_above` returns it.

* `Got`: how a call of `ida_get_new_above` ends.
* `Contract`: what `ida_alloc_range` promises.
* `idaAllocRange_iff`: the promise is kept if and only if the first `ida_get_new_above` succeeds; and
  devices have different minors as long as this is so.
-/

namespace Redroid.Binderfs.Ida

def eagain : Int := 11

/-- `INT_MAX` -/
def intMax : Nat := 2 ^ 31 - 1

/-- How `ida_get_new_above` ends: it returns 0 and stores the id `k`, or it returns `-EAGAIN` or
`-ENOSPC`. -/
inductive Got where
  | id (k : Nat)
  | again
  | noSpace
  deriving DecidableEq, Repr

/-- `ida_get_new_above(ida, min, &id)`: what it returns, the ids in use, and `id`. -/
def idaGetNewAbove (ida : Finset Nat) (min : Nat) (id : Int) : Got → Option (Int × Finset Nat × Int)
  | .id k => do
    guard (k ∉ ida ∧ min ≤ k)
    some (0, insert k ida, k)
  | .again => some (-eagain, ida, id)
  | .noSpace => some (-enospc, ida, id)

/-- The part of `ida_alloc_range` from `again`. A round is how `ida_get_new_above` ends, and whether
`ida_pre_get` succeeds. -/
def idaAllocLoop (min : Nat) (max : Int) : Int → Finset Nat → List (Got × Bool) →
    Option (Int × Finset Nat)
  | _, _, [] => none
  | id, ida, (got, preGet) :: rounds => do
    let (_, ida, id) ← idaGetNewAbove ida min id got
    let (ida, id) := if max < id then (ida.erase id.toNat, -enospc) else (ida, id)
    if id = -eagain then
      if preGet then idaAllocLoop min max id ida rounds else some (-enomem, ida)
    else some (id, ida)

/-- The largest id that is allowed. -/
def limit (max : BitVec 32) : Nat := if max.toInt < 0 then intMax else max.toNat

/-- `ida_alloc_range` -/
def idaAllocRange (ida : Finset Nat) (min max : BitVec 32) (rounds : List (Got × Bool)) :
    Option (Int × Finset Nat) :=
  if min.toInt < 0 then some (-enospc, ida)
  else idaAllocLoop min.toNat (limit max) 0 ida rounds

/-- `ida_alloc_max` -/
def idaAllocMax (ida : Finset Nat) (max : BitVec 32) (rounds : List (Got × Bool)) :
    Option (Int × Finset Nat) :=
  idaAllocRange ida 0 max rounds

/-- `ida_free` -/
def idaFree (ida : Finset Nat) (id : BitVec 32) : Option (Finset Nat) := do
  guard (0 ≤ id.toInt)
  some (ida.erase id.toNat)

variable {ida ida' : Finset Nat} {min max : BitVec 32} {rounds : List (Got × Bool)} {r : Int} {k : Nat}
  {got : Got} {b : Bool}

/-- No id from `min` to `max` is free. -/
def NoneFree (ida : Finset Nat) (min max : BitVec 32) : Prop :=
  ∀ k, min.toNat ≤ k → k ≤ limit max → k ∈ ida

/-- What `ida_alloc_range` promises: an id of the range that was free; or an error, and nothing has
changed. -/
structure Contract (ida : Finset Nat) (min max : BitVec 32) (rounds : List (Got × Bool)) (r : Int)
    (ida' : Finset Nat) : Prop where
  id : 0 ≤ r → ∃ k : Nat, r = k ∧ min.toNat ≤ k ∧ k ≤ limit max ∧ k ∉ ida ∧ ida' = insert k ida
  error : r < 0 → ida' = ida
  noSpace : r = -enospc → NoneFree ida min max
  full : NoneFree ida min max → (∀ preGet ∈ rounds.head?, preGet.1 ≠ .again) → r = -enospc
  noMem : ∀ rest, rounds = (.again, false) :: rest → r = -enomem
  retry : ∀ rest, rounds = (.again, true) :: rest → idaAllocRange ida min max rest = some (r, ida')

/-- The first `ida_get_new_above` stores an id, and one above the range only if none is free. -/
def Stored (ida : Finset Nat) (min max : BitVec 32) (rounds : List (Got × Bool)) : Prop :=
  ∃ k b rest, rounds = (.id k, b) :: rest ∧ (k ≤ limit max ∨ NoneFree ida min max)

/-! ## One call -/

/-- After an error of `ida_get_new_above` the id is 0, and it is not in use. -/
theorem idaAllocRange_error (hmin : 0 ≤ min.toInt) (hgot : got = .again ∨ got = .noSpace)
    (h : idaAllocRange ida min max ((got, b) :: rounds) = some (r, ida')) : r = 0 ∧ ida' = ida := by
  rw [idaAllocRange, if_neg (Int.not_lt.mpr hmin)] at h
  have hle : ¬ (limit max : Int) < 0 := Int.not_lt.mpr (Int.natCast_nonneg _)
  rcases hgot with rfl | rfl <;>
  · simp only [idaAllocLoop, idaGetNewAbove, Option.bind_eq_bind, Option.bind_some, if_neg hle] at h
    rw [if_neg (by decide)] at h
    cases h
    exact ⟨rfl, rfl⟩

/-- After an id was stored. -/
theorem idaAllocRange_id (hmin : 0 ≤ min.toInt)
    (h : idaAllocRange ida min max ((.id k, b) :: rounds) = some (r, ida')) :
    k ∉ ida ∧ min.toNat ≤ k ∧ ((k ≤ limit max ∧ r = k ∧ ida' = insert k ida) ∨
      (limit max < k ∧ r = -enospc ∧ ida' = ida)) := by
  rw [idaAllocRange, if_neg (Int.not_lt.mpr hmin), idaAllocLoop] at h
  obtain ⟨x, hx, h⟩ := Option.bind_eq_some_iff.mp h
  obtain ⟨⟨hk, hle⟩, hx⟩ := guard_bind hx
  cases hx
  refine ⟨hk, hle, ?_⟩
  by_cases hmax : (limit max : Int) < k
  · simp only [if_pos hmax, Int.toNat_natCast, Finset.erase_insert hk] at h
    rw [if_neg (by decide)] at h
    cases h
    exact .inr ⟨Int.ofNat_lt.mp hmax, rfl, rfl⟩
  · simp only [if_neg hmax] at h
    rw [if_neg (by rw [eagain]; omega)] at h
    cases h
    exact .inl ⟨by omega, rfl, rfl⟩

/-- The promise is kept if and only if `ida_get_new_above` stores an id. -/
theorem contract_iff (hmin : 0 ≤ min.toInt)
    (h : idaAllocRange ida min max rounds = some (r, ida')) :
    Contract ida min max rounds r ida' ↔ Stored ida min max rounds := by
  cases rounds with
  | nil =>
    rw [idaAllocRange, if_neg (Int.not_lt.mpr hmin), idaAllocLoop] at h
    cases h
  | cons round rest =>
    obtain ⟨got, b⟩ := round
    by_cases hgot : got = .again ∨ got = .noSpace
    · obtain ⟨rfl, rfl⟩ := idaAllocRange_error hmin hgot h
      constructor
      · intro hc
        obtain ⟨k, -, -, -, hk, heq⟩ := hc.id (Int.le_refl 0)
        exact absurd (heq ▸ Finset.mem_insert_self k ida') hk
      · rintro ⟨k, b', rest', heq, -⟩
        cases heq
        rcases hgot with hgot | hgot <;> cases hgot
    · obtain ⟨k, rfl⟩ : ∃ k, got = .id k := by
        cases got with
        | id k => exact ⟨k, rfl⟩
        | again | noSpace => simp at hgot
      obtain ⟨hk, hle, hcase⟩ := idaAllocRange_id hmin h
      rcases hcase with ⟨hmax, rfl, rfl⟩ | ⟨hmax, rfl, rfl⟩
      · refine ⟨fun _ => ⟨k, b, rest, rfl, .inl hmax⟩, fun _ => ⟨fun _ => ⟨k, rfl, hle, hmax, hk, rfl⟩,
          fun hneg => absurd hneg (by omega), fun heq => ?_, fun hnone _ => absurd (hnone k hle hmax) hk,
          nofun, nofun⟩⟩
        rw [enospc] at heq
        omega
      · constructor
        · exact fun hc => ⟨k, b, rest, rfl, .inr (hc.noSpace rfl)⟩
        · rintro ⟨k', b', rest', heq, hfree⟩
          cases heq
          have hnone := hfree.resolve_left (Nat.not_le.mpr hmax)
          exact ⟨fun hpos => absurd hpos (by decide), fun _ => rfl, fun _ => hnone, fun _ _ => rfl,
            nofun, nofun⟩

/-! ## The minors of binderfs -/

/-- The ids in use, and the minors of the devices. -/
structure State where
  ida : Finset Nat
  live : List Nat
  deriving DecidableEq

inductive Op where
  /-- A device is created. -/
  | alloc (max : BitVec 32) (rounds : List (Got × Bool))
  /-- The device with this minor goes away. -/
  | free (minor : BitVec 32)

def exec (s : State) : Op → Option State
  | .alloc max rounds => do
    let (r, ida) ← idaAllocMax s.ida max rounds
    some ⟨ida, if r < 0 then s.live else r.toNat :: s.live⟩
  | .free minor => do
    guard (minor.toNat ∈ s.live)
    let ida ← idaFree s.ida minor
    some ⟨ida, s.live.erase minor.toNat⟩

/-- The system. -/
def idaSys : Sys State Op := .ofExec (· = ⟨∅, []⟩) exec

/-- `ida_get_new_above` stores an id in each call of `ida_alloc_max`. -/
def Stores (s : State) : Op → Prop
  | .alloc max rounds => Stored s.ida 0 max rounds
  | .free _ => True

/-- The devices have different minors, and these are the ids in use. -/
def Distinct (s : State) : Prop := s.live.Nodup ∧ ∀ k, k ∈ s.live ↔ k ∈ s.ida

theorem Distinct.next {s s' : State} {op : Op} (hi : Distinct s) (hc : Stores s op)
    (h : exec s op = some s') : Distinct s' := by
  obtain ⟨hnodup, hmem⟩ := hi
  cases op with
  | alloc max rounds =>
    obtain ⟨⟨r, ida⟩, halloc, h⟩ := Option.bind_eq_some_iff.mp h
    cases h
    have hcontract := (contract_iff (by decide) halloc).mpr hc
    by_cases hneg : r < 0
    · rw [if_pos hneg, hcontract.error hneg]
      exact ⟨hnodup, hmem⟩
    · rw [if_neg hneg]
      obtain ⟨k, rfl, -, -, hk, rfl⟩ := hcontract.id (Int.not_lt.mp hneg)
      rw [Int.toNat_natCast]
      refine ⟨List.nodup_cons.mpr ⟨fun hin => hk ((hmem k).mp hin), hnodup⟩, fun j => ?_⟩
      rw [List.mem_cons, Finset.mem_insert, hmem]
  | free minor =>
    obtain ⟨-, h⟩ := guard_bind h
    obtain ⟨ida, hfree, h⟩ := Option.bind_eq_some_iff.mp h
    obtain ⟨-, hfree⟩ := guard_bind hfree
    cases hfree
    cases h
    refine ⟨hnodup.erase _, fun j => ?_⟩
    rw [hnodup.mem_erase_iff, Finset.mem_erase, hmem]

/-- `ida_alloc_range` keeps its promise if and only if the first `ida_get_new_above` stores an id, and
one above the range only if none is free. In every run in which this is so, devices have different
minors, and these are the ids in use. -/
theorem idaAllocRange_iff (ida ida' : Finset Nat) (min max : BitVec 32) (rounds : List (Got × Bool))
    (r : Int) (hmin : 0 ≤ min.toInt) (h : idaAllocRange ida min max rounds = some (r, ida')) :
    (Contract ida min max rounds r ida' ↔ Stored ida min max rounds) ∧
      ∀ s, idaSys.ReachIf Stores s → Distinct s := by
  refine ⟨contract_iff hmin h, fun s hs => ?_⟩
  refine hs.inv (fun s h0 => ?_) fun s op s' hi hc hst => hi.next hc hst
  cases h0
  exact ⟨List.nodup_nil, fun k => by simp⟩

/-- Two devices are made, the first one goes away, and its minor is used again. -/
theorem idaAllocRange_again : Contract {1} 0 16 [(.id 0, true)] 0 {0, 1} ∧
    Distinct ⟨{0, 1}, [0, 1]⟩ := by
  have h : idaAllocRange {1} 0 16 [(.id 0, true)] = some (0, {0, 1}) := rfl
  have hstored (ida : Finset Nat) (k : Nat) (hk : k ≤ 16) : Stored ida 0 16 [(.id k, true)] :=
    ⟨k, true, [], rfl, .inl hk⟩
  obtain ⟨hiff, hdistinct⟩ := idaAllocRange_iff {1} {0, 1} 0 16 [(.id 0, true)] 0 (by decide) h
  have h0 : idaSys.ReachIf Stores ⟨∅, []⟩ := .init rfl
  have h1 : idaSys.ReachIf Stores ⟨{0}, [0]⟩ :=
    h0.step (a := .alloc 16 [(.id 0, true)]) (hstored _ _ (by decide)) rfl
  have h2 : idaSys.ReachIf Stores ⟨{1, 0}, [1, 0]⟩ :=
    h1.step (a := .alloc 16 [(.id 1, true)]) (hstored _ _ (by decide)) rfl
  have h3 : idaSys.ReachIf Stores ⟨{1}, [1]⟩ := h2.step (a := .free 0) trivial rfl
  have h4 : idaSys.ReachIf Stores ⟨{0, 1}, [0, 1]⟩ :=
    h3.step (a := .alloc 16 [(.id 0, true)]) (hstored _ _ (by decide)) rfl
  exact ⟨hiff.mpr (hstored _ _ (by decide)), hdistinct _ h4⟩

/-- Two devices with the minor 0: `ida_get_new_above` returns `-EAGAIN` both times. -/
theorem minor_shared : ¬ Contract ∅ 0 16 [(.again, true)] 0 ∅ ∧
    ¬ ∀ s, idaSys.Reach s → Distinct s := by
  constructor
  · intro hc
    obtain ⟨k, -, -, -, -, heq⟩ := hc.id (Int.le_refl 0)
    exact absurd (heq ▸ Finset.mem_insert_self k ∅) (Finset.notMem_empty k)
  · intro h
    have hstart : idaSys.Reach ⟨∅, []⟩ := .init rfl
    have h₁ : idaSys.Reach ⟨∅, [0]⟩ := hstart.next (a := .alloc 16 [(.again, true)]) rfl
    have h₂ : idaSys.Reach ⟨∅, [0, 0]⟩ := h₁.next (a := .alloc 16 [(.again, true)]) rfl
    exact absurd (h _ h₂).1 (by decide)

end Redroid.Binderfs.Ida
