import Mathlib.Data.Set.Basic
import Mathlib.Order.Interval.Set.Basic

/-!
# Descending lists of intervals

A list of items that each stand for an interval of natural numbers, `lo r` to `hi r`, both
inclusive. `Desc`: the intervals are not empty and strictly descending, so they are pairwise
disjoint. `cover`: the numbers in them.
-/

namespace Redroid

variable {ρ : Type} (lo hi : ρ → Nat)

/-- The numbers in the intervals of `l`. -/
def cover (l : List ρ) : Set Nat := {p | ∃ r ∈ l, lo r ≤ p ∧ p ≤ hi r}

/-- The intervals of `l` are not empty and strictly descending. -/
structure Desc (l : List ρ) : Prop where
  nonempty : ∀ r ∈ l, lo r ≤ hi r
  sorted : l.Pairwise fun a b => hi b < lo a

variable {lo hi} {r : ρ} {l l₁ l₂ : List ρ} {p : Nat}

theorem mem_cover : p ∈ cover lo hi l ↔ ∃ r ∈ l, lo r ≤ p ∧ p ≤ hi r := Iff.rfl

@[simp] theorem cover_nil : cover lo hi [] = ∅ := by ext; simp [mem_cover]

@[simp] theorem cover_cons : cover lo hi (r :: l) = Set.Icc (lo r) (hi r) ∪ cover lo hi l := by
  ext; simp [mem_cover, Set.mem_Icc]

@[simp] theorem cover_append : cover lo hi (l₁ ++ l₂) = cover lo hi l₁ ∪ cover lo hi l₂ := by
  ext p
  simp only [mem_cover, List.mem_append, Set.mem_union, or_and_right, exists_or]

namespace Desc

theorem nil : Desc lo hi [] := ⟨by simp, .nil⟩

theorem cons_iff : Desc lo hi (r :: l) ↔
    lo r ≤ hi r ∧ (∀ b ∈ l, hi b < lo r) ∧ Desc lo hi l := by
  constructor
  · rintro ⟨hn, hs⟩
    obtain ⟨h1, h2⟩ := List.pairwise_cons.mp hs
    exact ⟨hn r (by simp), h1, fun b hb => hn b (by simp [hb]), h2⟩
  · rintro ⟨hr, hb, hn, hs⟩
    exact ⟨by simpa using ⟨hr, hn⟩, List.pairwise_cons.mpr ⟨hb, hs⟩⟩

theorem append_iff : Desc lo hi (l₁ ++ l₂) ↔
    Desc lo hi l₁ ∧ Desc lo hi l₂ ∧ ∀ a ∈ l₁, ∀ b ∈ l₂, hi b < lo a := by
  constructor
  · rintro ⟨hn, hs⟩
    obtain ⟨h1, h2, h3⟩ := List.pairwise_append.mp hs
    exact ⟨⟨fun b hb => hn b (by simp [hb]), h1⟩, ⟨fun b hb => hn b (by simp [hb]), h2⟩, h3⟩
  · rintro ⟨⟨hn₁, hs₁⟩, ⟨hn₂, hs₂⟩, h⟩
    refine ⟨fun b hb => ?_, List.pairwise_append.mpr ⟨hs₁, hs₂, h⟩⟩
    rcases List.mem_append.mp hb with hb | hb
    · exact hn₁ b hb
    · exact hn₂ b hb

theorem sublist (h : Desc lo hi l) (hs : l₁.Sublist l) : Desc lo hi l₁ :=
  ⟨fun b hb => h.nonempty b (hs.subset hb), h.sorted.sublist hs⟩

/-- Two items that contain a common number are the same item. -/
theorem eq_of_common (h : Desc lo hi l) {a b : ρ} (ha : a ∈ l) (hb : b ∈ l) (hap : lo a ≤ p)
    (hpa : p ≤ hi a) (hbp : lo b ≤ p) (hpb : p ≤ hi b) : a = b := by
  obtain ⟨i, hi', rfl⟩ := List.getElem_of_mem ha
  obtain ⟨j, hj', rfl⟩ := List.getElem_of_mem hb
  rcases Nat.lt_trichotomy i j with hij | rfl | hij
  · have := List.pairwise_iff_getElem.mp h.sorted i j hi' hj' hij
    omega
  · rfl
  · have := List.pairwise_iff_getElem.mp h.sorted j i hj' hi' hij
    omega

end Desc

end Redroid
