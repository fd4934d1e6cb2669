import Mathlib.Tactic.Common
import Mathlib.Data.List.Basic
import Mathlib.Data.List.Nodup
import Mathlib.Algebra.Order.BigOperators.Group.List
import Mathlib.Algebra.Order.Ring.Nat

/-!
# Counting over lists

* `countP_turn`: how a count over a list without duplicates changes when one element does.
* `sum_map_set`: how a sum over a list changes when one element is replaced.
-/

namespace Redroid

variable {α : Type}

/-- Only the element `x` of the list counts differently. -/
theorem countP_turn {f g : α → Bool} {xs : List α} {x : α} (hn : xs.Nodup) (hx : x ∈ xs)
    (h : ∀ y, y ≠ x → f y = g y) :
    xs.countP g + (f x).toNat = xs.countP f + (g x).toNat := by
  induction xs with
  | nil => cases hx
  | cons y ys ih =>
    obtain ⟨hy, hn⟩ := List.nodup_cons.mp hn
    rw [List.countP_cons, List.countP_cons]
    rcases List.mem_cons.mp hx with rfl | hx
    · have hrest : ys.countP g = ys.countP f :=
        List.countP_congr fun z hz => by rw [h z fun he => hy (he ▸ hz)]
      rw [hrest]
      cases f x <;> cases g x <;> simp
    · have hne : y ≠ x := fun he => hy (he ▸ hx)
      have := ih hn hx
      rw [h y hne]
      omega

/-- One element of the list is replaced. -/
theorem sum_map_set {f : α → Nat} {xs : List α} {i : Nat} {x : α} (y : α) (h : xs[i]? = some x) :
    ((xs.set i y).map f).sum + f x = (xs.map f).sum + f y := by
  induction xs generalizing i with
  | nil => cases h
  | cons z zs ih =>
    cases i with
    | zero =>
      cases h
      simp only [List.set_cons_zero, List.map_cons, List.sum_cons]
      omega
    | succ i =>
      have := ih h
      simp only [List.set_cons_succ, List.map_cons, List.sum_cons]
      omega

/-- One element counts at most as much as all. -/
theorem le_sum_map {f : α → Nat} {xs : List α} {x : α} (h : x ∈ xs) : f x ≤ (xs.map f).sum :=
  List.single_le_sum (fun _ _ => Nat.zero_le _) _ (List.mem_map_of_mem h)

end Redroid
