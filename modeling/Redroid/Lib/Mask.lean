import Mathlib.Tactic.Common

/-!
# Bit masks as sets of bits

A word of flags is a set of bit positions. `Sub a b`: every bit of `a` is a bit of `b`;
`a &&& b = 0`: no common bit. `sub_iff` and `disj_iff` turn both into statements about single
bits, where the bitwise operations are the Boolean ones.
-/

namespace Redroid.Mask

variable {w : Nat} {a b c : BitVec w}

/-- Every bit of `a` is a bit of `b`. -/
def Sub (a b : BitVec w) : Prop := a &&& ~~~b = 0

instance (a b : BitVec w) : Decidable (Sub a b) := inferInstanceAs (Decidable (_ = _))

theorem disj_iff : a &&& b = 0 ↔ ∀ i, a.getLsbD i = true → b.getLsbD i = false := by
  constructor
  · intro h i ha
    have := congrArg (·.getLsbD i) h
    simpa [ha] using this
  · intro h
    apply BitVec.eq_of_getLsbD_eq
    intro i _
    cases ha : a.getLsbD i with
    | false => simp [ha]
    | true => simp [h i ha]

theorem sub_iff : Sub a b ↔ ∀ i, a.getLsbD i = true → b.getLsbD i = true := by
  unfold Sub
  rw [disj_iff]
  refine forall_congr' fun i => ⟨fun h ha => ?_, fun h ha => ?_⟩
  · have hi := BitVec.lt_of_getLsbD ha
    simpa [hi] using h ha
  · simp [h ha]

/-- The kernel's test for "all bits of `a` are in `b`". -/
theorem and_eq_right_iff : b &&& a = a ↔ Sub a b := by
  rw [sub_iff]
  constructor
  · intro h i hi
    have := congrArg (·.getLsbD i) h
    simpa [hi] using this
  · intro h
    apply BitVec.eq_of_getLsbD_eq
    intro i _
    cases hi : a.getLsbD i with
    | false => simp [hi]
    | true => simp [hi, h i hi]

theorem andNot_and_self : (a &&& ~~~b) &&& b = 0 :=
  disj_iff.mpr fun i hi => by
    simp only [BitVec.getLsbD_and, BitVec.getLsbD_not, Bool.and_eq_true, Bool.not_eq_true'] at hi
    exact hi.2.2

end Redroid.Mask
