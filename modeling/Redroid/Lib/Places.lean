import Mathlib.Tactic.Common
import Mathlib.Data.List.Basic
import Mathlib.Logic.Function.Basic

/-!
# Items on at most one of many lists

`c p` is the list at the place `p`. An item that is linked into a list through a field of its own
(the kernel's `struct list_head`) is on at most one of the lists, and there once: `Placed c`.

* `Placed.shrink`: taking items off a list keeps it.
* `Placed.grow`: adding an item that is on no list keeps it.
* `Placed.move`: so does moving an item from one list to another one.
-/

namespace Redroid

variable {ι α β : Type}

/-- `a` is on one of the lists. -/
def OnList (c : ι → List α) (a : α) : Prop := ∃ p, a ∈ c p

/-- Every item is on at most one list, and there at most once. -/
structure Placed (c : ι → List α) : Prop where
  nodup : ∀ p, (c p).Nodup
  unique : ∀ {a p q}, a ∈ c p → a ∈ c q → p = q

namespace Placed

theorem empty : Placed fun _ : ι => ([] : List α) :=
  ⟨fun _ => List.nodup_nil, fun h => by cases h⟩

variable [DecidableEq ι] {c : ι → List α} {p q : ι} {l l' : List α} {a : α}

theorem shrink (h : Placed c) (hl : l.Sublist (c p)) : Placed (Function.update c p l) where
  nodup q := by
    rcases eq_or_ne q p with rfl | hq
    · rw [Function.update_self]; exact (h.nodup q).sublist hl
    · rw [Function.update_of_ne hq]; exact h.nodup q
  unique {b q r} hq hr := by
    have key {q : ι} (hb : b ∈ Function.update c p l q) : b ∈ c q := by
      rcases eq_or_ne q p with rfl | hq
      · rw [Function.update_self] at hb; exact hl.subset hb
      · rwa [Function.update_of_ne hq] at hb
    exact h.unique (key hq) (key hr)

theorem grow (h : Placed c) (ha : ¬ OnList c a) (hl : l.Nodup)
    (hs : ∀ b ∈ l, b = a ∨ b ∈ c p) : Placed (Function.update c p l) where
  nodup q := by
    rcases eq_or_ne q p with rfl | hq
    · rw [Function.update_self]; exact hl
    · rw [Function.update_of_ne hq]; exact h.nodup q
  unique {b q r} hq hr := by
    have key {q : ι} (hb : b ∈ Function.update c p l q) : (b = a ∧ q = p) ∨ b ∈ c q := by
      rcases eq_or_ne q p with rfl | hq
      · rw [Function.update_self] at hb
        exact (hs b hb).imp_left fun h => ⟨h, rfl⟩
      · rw [Function.update_of_ne hq] at hb; exact .inr hb
    rcases key hq with ⟨hb, rfl⟩ | hq' <;> rcases key hr with ⟨hb', rfl⟩ | hr'
    · rfl
    · subst hb; exact absurd ⟨_, hr'⟩ ha
    · subst hb'; exact absurd ⟨_, hq'⟩ ha
    · exact h.unique hq' hr'

/-- An item that leaves its list is on no list. -/
theorem not_onList (h : Placed c) (ha : a ∈ c p) (hl : a ∉ l) :
    ¬ OnList (Function.update c p l) a := by
  rintro ⟨q, hq⟩
  rcases eq_or_ne q p with rfl | hne
  · rw [Function.update_self] at hq; exact hl hq
  · rw [Function.update_of_ne hne] at hq; exact hne (h.unique hq ha)

theorem move (h : Placed c) (ha : a ∈ c p) (hl : l.Sublist (c p)) (hal : a ∉ l) (hpq : q ≠ p)
    (hl' : l'.Nodup) (hs : ∀ b ∈ l', b = a ∨ b ∈ c q) :
    Placed (Function.update (Function.update c p l) q l') :=
  (h.shrink hl).grow (h.not_onList ha hal) hl' (by rwa [Function.update_of_ne hpq])

end Placed

section OnList

variable [DecidableEq ι] {c : ι → List α} {p : ι} {l : List α} {a : α}

/-- Which items are on a list after one of the lists has changed. -/
theorem onList_update : OnList (Function.update c p l) a ↔ a ∈ l ∨ ∃ q, q ≠ p ∧ a ∈ c q := by
  constructor
  · rintro ⟨q, hq⟩
    rcases eq_or_ne q p with rfl | h
    · rw [Function.update_self] at hq; exact .inl hq
    · rw [Function.update_of_ne h] at hq; exact .inr ⟨q, h, hq⟩
  · rintro (h | ⟨q, h, hq⟩)
    · exact ⟨p, by rwa [Function.update_self]⟩
    · exact ⟨q, by rwa [Function.update_of_ne h]⟩

end OnList

end Redroid
