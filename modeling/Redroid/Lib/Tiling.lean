import Mathlib

/-!
# Lists of pieces that tile an interval

A piece is known by its start; it ends where the next piece starts, the last one at the end of
the interval. `Tiles m start lo hi l`: the pieces of `l` follow each other from `lo` to `hi`, each
at least as long as `m` says. `spans`: the pieces with their ends.
-/

namespace Redroid

variable {β : Type}

/-- The pieces of `l` tile `lo` to `hi`, each piece `b` at least `m b` long. -/
def Tiles (m start : β → Nat) (lo hi : Nat) : List β → Prop
  | [] => lo = hi
  | b :: rest => start b = lo ∧ ∃ mid, lo + m b ≤ mid ∧ Tiles m start mid hi rest

/-- Where the piece before the pieces `rest` ends. -/
def endOf (start : β → Nat) (hi : Nat) (rest : List β) : Nat := (rest.head?.map start).getD hi

@[simp] theorem endOf_nil {start : β → Nat} {hi : Nat} : endOf start hi [] = hi := rfl

@[simp] theorem endOf_cons {start : β → Nat} {hi : Nat} {b : β} {rest : List β} :
    endOf start hi (b :: rest) = start b := rfl

/-- The pieces of `l` with their ends; the last one ends at `hi`. -/
def spans (start : β → Nat) (hi : Nat) : List β → List (β × Nat)
  | [] => []
  | b :: rest => (b, endOf start hi rest) :: spans start hi rest

@[simp] theorem spans_nil {start : β → Nat} {hi : Nat} : spans start hi [] = [] := rfl

@[simp] theorem spans_cons {start : β → Nat} {hi : Nat} {b : β} {rest : List β} :
    spans start hi (b :: rest) = (b, endOf start hi rest) :: spans start hi rest := rfl

/-- The last piece of `l₁` ends where `l₂` begins. -/
theorem spans_append {start : β → Nat} {hi : Nat} {l₁ l₂ : List β} :
    spans start hi (l₁ ++ l₂) = spans start (endOf start hi l₂) l₁ ++ spans start hi l₂ := by
  induction l₁ with
  | nil => rfl
  | cons b rest ih =>
    rw [List.cons_append, spans_cons, ih, spans_cons, List.cons_append]
    cases rest <;> rfl

theorem mem_spans {start : β → Nat} {hi : Nat} {l : List β} {p : β × Nat} :
    p ∈ spans start hi l ↔ ∃ l₁ l₂, l = l₁ ++ p.1 :: l₂ ∧ p.2 = endOf start hi l₂ := by
  constructor
  · intro h
    induction l with
    | nil => cases h
    | cons b rest ih =>
      rcases List.mem_cons.mp h with rfl | h
      · exact ⟨[], rest, rfl, rfl⟩
      · obtain ⟨l₁, l₂, rfl, he⟩ := ih h
        exact ⟨b :: l₁, l₂, rfl, he⟩
  · rintro ⟨l₁, l₂, rfl, he⟩
    rw [spans_append, spans_cons, ← he]
    simp

namespace Tiles

variable {m start : β → Nat} {lo hi : Nat} {b b' c : β} {l l₁ l₂ rest : List β}

@[simp] theorem nil_iff : Tiles m start lo hi [] ↔ lo = hi := Iff.rfl

theorem lo_eq_endOf (h : Tiles m start lo hi l) : lo = endOf start hi l := by
  cases l with
  | nil => exact h
  | cons b rest => exact h.1.symm

theorem cons_iff : Tiles m start lo hi (b :: rest) ↔
    start b = lo ∧ lo + m b ≤ endOf start hi rest ∧
      Tiles m start (endOf start hi rest) hi rest := by
  constructor
  · rintro ⟨h1, mid, h2, h3⟩
    have := h3.lo_eq_endOf
    subst this
    exact ⟨h1, h2, h3⟩
  · rintro ⟨h1, h2, h3⟩
    exact ⟨h1, _, h2, h3⟩

theorem append_iff : Tiles m start lo hi (l₁ ++ l₂) ↔
    ∃ mid, Tiles m start lo mid l₁ ∧ Tiles m start mid hi l₂ := by
  induction l₁ generalizing lo with
  | nil => simp
  | cons b rest ih =>
    simp only [List.cons_append, Tiles, ih]
    constructor
    · rintro ⟨h1, mid, h2, mid', h3, h4⟩
      exact ⟨mid', ⟨h1, mid, h2, h3⟩, h4⟩
    · rintro ⟨mid', ⟨h1, mid, h2, h3⟩, h4⟩
      exact ⟨h1, mid, h2, mid', h3, h4⟩

theorem le (h : Tiles m start lo hi l) : lo ≤ hi := by
  induction l generalizing lo with
  | nil => exact Nat.le_of_eq (nil_iff.mp h)
  | cons b rest ih =>
    obtain ⟨-, mid, h2, h3⟩ := h
    have := ih h3
    omega

theorem mem_bounds (h : Tiles m start lo hi l) (hb : b ∈ l) :
    lo ≤ start b ∧ start b + m b ≤ hi := by
  induction l generalizing lo with
  | nil => cases hb
  | cons a rest ih =>
    obtain ⟨h1, mid, h2, h3⟩ := h
    have hle := h3.le
    rcases List.mem_cons.mp hb with rfl | hb
    · omega
    · have := ih h3 hb
      omega

/-- The starts are strictly increasing. -/
theorem sorted (hm : ∀ b, 0 < m b) (h : Tiles m start lo hi l) :
    l.Pairwise fun a b => start a < start b := by
  induction l generalizing lo with
  | nil => exact .nil
  | cons a rest ih =>
    obtain ⟨h1, mid, h2, h3⟩ := h
    refine List.pairwise_cons.mpr ⟨fun b hb => ?_, ih h3⟩
    have := (h3.mem_bounds hb).1
    have := hm a
    omega

theorem mono {m' : β → Nat} (hm : ∀ b, m' b ≤ m b) (h : Tiles m start lo hi l) :
    Tiles m' start lo hi l := by
  induction l generalizing lo with
  | nil => exact h
  | cons a rest ih =>
    obtain ⟨h1, mid, h2, h3⟩ := h
    exact ⟨h1, mid, Nat.le_trans (Nat.add_le_add_left (hm a) _) h2, ih h3⟩

/-- The end of a piece in the list. -/
theorem le_endOf (h : Tiles m start lo hi (l₁ ++ b :: l₂)) :
    start b + m b ≤ endOf start hi l₂ ∧ endOf start hi l₂ ≤ hi := by
  obtain ⟨mid, -, h4⟩ := append_iff.mp h
  obtain ⟨h5, h6, h7⟩ := cons_iff.mp h4
  exact ⟨by omega, h7.le⟩

/-- A piece is replaced by one with the same start. -/
theorem replace (h : Tiles m start lo hi (l₁ ++ b :: l₂)) (hb : start b' = start b)
    (h1 : start b + m b' ≤ endOf start hi l₂) : Tiles m start lo hi (l₁ ++ b' :: l₂) := by
  obtain ⟨mid, h3, h4⟩ := append_iff.mp h
  obtain ⟨h4, -, h5⟩ := cons_iff.mp h4
  exact append_iff.mpr ⟨mid, h3, cons_iff.mpr ⟨by omega, by omega, h5⟩⟩

/-- A piece is merged into the one before it: it is dropped. -/
theorem merge (h : Tiles m start lo hi (l₁ ++ b :: c :: l₂)) :
    Tiles m start lo hi (l₁ ++ b :: l₂) := by
  obtain ⟨mid, h1, h2, mid', h3, -, mid'', h4, h5⟩ := append_iff.mp h
  exact append_iff.mpr ⟨mid, h1, h2, mid'', by omega, h5⟩

/-- One piece becomes two: `c` is its rest from `start c` on. -/
theorem split (h : Tiles m start lo hi (l₁ ++ b :: l₂)) (hb : start b' = start b)
    (h1 : start b + m b' ≤ start c) (h2 : start c + m c ≤ endOf start hi l₂) :
    Tiles m start lo hi (l₁ ++ b' :: c :: l₂) := by
  obtain ⟨mid, h3, h4⟩ := append_iff.mp h
  obtain ⟨h4, -, h5⟩ := cons_iff.mp h4
  exact append_iff.mpr ⟨mid, h3, by omega, start c, by omega, rfl, _, h2, h5⟩

end Tiles

end Redroid
