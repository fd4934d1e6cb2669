import Mathlib

/-!
# Bytes by offset

A piece of memory is a function from offsets to bytes. `load` reads a little-endian number,
`store` writes one, `blit` copies the first bytes of another piece. `bytesOf` are the bytes of a
number. `flat` sees pieces of one length, the pages, as one piece.
-/

namespace Redroid

/-- A piece of memory. -/
abbrev Bytes := Nat → UInt8

namespace Bytes

variable {b b' src : Bytes} {n m off k v a : Nat}

/-- The little-endian number of `n` bytes at `off`. -/
def load : Nat → Bytes → Nat → Nat
  | 0, _, _ => 0
  | n + 1, b, off => (b off).toNat + 256 * load n b (off + 1)

/-- The low `n` bytes of `v`, written at `off`. -/
def store (n : Nat) (b : Bytes) (off v : Nat) : Bytes := fun a =>
  if off ≤ a ∧ a < off + n then UInt8.ofNat (v / 256 ^ (a - off)) else b a

/-- The first `n` bytes of `src`, written at `off`. -/
def blit (n : Nat) (b : Bytes) (off : Nat) (src : Bytes) : Bytes := fun a =>
  if off ≤ a ∧ a < off + n then src (a - off) else b a

/-- The low `n` bytes of `v`. -/
def bytesOf (n v : Nat) : List UInt8 := (List.range n).map fun i => UInt8.ofNat (v / 256 ^ i)

@[simp] theorem length_bytesOf : (bytesOf n v).length = n := by simp [bytesOf]

theorem load_congr (h : ∀ a, off ≤ a → a < off + n → b a = b' a) : load n b off = load n b' off := by
  induction n generalizing off with
  | zero => rfl
  | succ n ih =>
    rw [load, load, h off (by omega) (by omega), ih fun a h₁ h₂ => h a (by omega) (by omega)]

/-- A piece seen from an offset on. -/
theorem load_from : load n (fun i => b (off + i)) k = load n b (off + k) := by
  induction n generalizing k with
  | zero => rfl
  | succ n ih => rw [load, load, ih, Nat.add_assoc]

theorem store_out (h : a < off ∨ off + n ≤ a) : store n b off v a = b a := by
  rw [store, if_neg (by omega)]

theorem blit_out (h : a < off ∨ off + n ≤ a) : blit n b off src a = b a := by
  rw [blit, if_neg (by omega)]

theorem load_store_out (h : k + m ≤ off ∨ off + n ≤ k) :
    load m (store n b off v) k = load m b k :=
  load_congr fun _ _ _ => store_out (by omega)

/-- A number inside a copied piece is the number of the source. -/
theorem load_blit (h : k + m ≤ n) : load m (blit n b off src) (off + k) = load m src k := by
  rw [← load_from]
  refine load_congr fun a h₁ h₂ => ?_
  rw [blit, if_pos (by omega), Nat.add_sub_cancel_left]

/-- A number is read back from its digits. -/
theorem load_digits (h : ∀ i < n, b (off + i) = UInt8.ofNat (v / 256 ^ i)) :
    load n b off = v % 256 ^ n := by
  induction n generalizing off v with
  | zero => simp [load, Nat.mod_one]
  | succ n ih =>
    have h₀ := h 0 (by omega)
    have hi : load n b (off + 1) = v / 256 % 256 ^ n := by
      refine ih fun i hi => ?_
      rw [Nat.add_assoc, Nat.add_comm 1 i, h (i + 1) (by omega), Nat.div_div_eq_div_mul, pow_succ,
        Nat.mul_comm]
    rw [Nat.add_zero, pow_zero, Nat.div_one] at h₀
    rw [load, h₀, hi, pow_succ, Nat.mul_comm (256 ^ n), Nat.mod_mul]
    simp

/-- What was stored is read back. -/
theorem load_store : load n (store n b off v) off = v % 256 ^ n :=
  load_digits fun i hi => by rw [store, if_pos (by omega), Nat.add_sub_cancel_left]

/-- A copy in two parts. -/
theorem blit_append : blit m (blit n b off src) (off + n) (fun i => src (n + i)) =
    blit (n + m) b off src := by
  funext a
  simp only [blit]
  by_cases hhi : off + n ≤ a
  · by_cases hend : a < off + n + m
    · rw [if_pos ⟨hhi, hend⟩, if_pos (by omega)]
      congr 1
      omega
    · rw [if_neg (by omega), if_neg (by omega), if_neg (by omega)]
  · by_cases hlo : off ≤ a
    · rw [if_neg (by omega), if_pos (by omega), if_pos (by omega)]
    · rw [if_neg (by omega), if_neg (by omega), if_neg (by omega)]

theorem blit_zero : blit 0 b off src = b := funext fun a => blit_out (by omega)

/-- What is copied does not depend on the source behind it. -/
theorem blit_congr {src' : Bytes} (h : ∀ i < n, src i = src' i) : blit n b off src = blit n b off src' := by
  funext a
  simp only [blit]
  split
  · exact h _ (by omega)
  · rfl

/-! ## Pages -/

/-- Pages of `size` bytes, one after the other. -/
def flat (size : Nat) (pages : Nat → Bytes) : Bytes := fun a => pages (a / size) (a % size)

variable {size i : Nat} {pages : Nat → Bytes}

/-- A byte inside a page. -/
theorem flat_page (h : k < size) : flat size pages (i * size + k) = pages i k := by
  have hdiv : (i * size + k) / size = i := by
    rw [Nat.mul_comm, Nat.mul_add_div (by omega), Nat.div_eq_of_lt h, Nat.add_zero]
  have hmod : (i * size + k) % size = k := by
    rw [Nat.mul_comm, Nat.mul_add_mod, Nat.mod_eq_of_lt h]
  rw [flat, hdiv, hmod]

/-- A copy inside one page is a copy in the whole. -/
theorem flat_blit (h : off + n ≤ size) :
    flat size (Function.update pages i (blit n (pages i) off src)) =
      blit n (flat size pages) (i * size + off) src := by
  funext a
  rcases Nat.eq_zero_or_pos n with rfl | hn
  · rw [blit_zero, blit_zero, Function.update_eq_self]
  have ha : a / size * size + a % size = a := by
    rw [Nat.mul_comm]
    exact Nat.div_add_mod a size
  have hlt : a % size < size := Nat.mod_lt _ (by omega)
  simp only [flat, blit]
  by_cases hi : a / size = i
  · subst hi
    rw [Function.update_self, blit]
    by_cases hin : off ≤ a % size ∧ a % size < off + n
    · rw [if_pos hin, if_pos (by omega)]
      congr 1
      omega
    · rw [if_neg hin, if_neg (by omega)]
  · rw [Function.update_of_ne hi, if_neg]
    rintro ⟨hlo, hhi⟩
    refine hi (Nat.div_eq_of_lt_le (by omega) ?_)
    rw [Nat.add_mul, Nat.one_mul]
    omega

end Bytes

end Redroid
