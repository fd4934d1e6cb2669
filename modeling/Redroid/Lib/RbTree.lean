import Mathlib

/-!
# Red-black trees as the kernel keeps them

A tree is searched and extended by its user: the user walks down from the root, links the new
node as a leaf, and the kernel's `rb_insert_color` rebalances. Deletion is the kernel's `rb_erase`.
The two kernel functions are the fields of `RbOps`, with what their users rely on: they keep the
in-order sequence, up to the erased node.

* `insertBy visit x t`: walk down, left where `visit` says so, and link `x`; `none` if `visit`
  gives up.
* `insertBy_toList`: `x` joins the in-order sequence, the rest stays in order.
* `insertBy_pairwise`, `insertBy_sorted`: if the walk compares keys, the sequence stays ordered by them.
-/

namespace Redroid

inductive RbTree (α : Type) where
  | leaf
  | node (red : Bool) (left : RbTree α) (x : α) (right : RbTree α)
  deriving DecidableEq, Repr

namespace RbTree

variable {α : Type}

/-- The in-order sequence. -/
def toList : RbTree α → List α
  | .leaf => []
  | .node _ l x r => l.toList ++ x :: r.toList

@[simp] theorem toList_leaf : (leaf : RbTree α).toList = [] := rfl

@[simp] theorem toList_node (c : Bool) (l : RbTree α) (x : α) (r : RbTree α) :
    (node c l x r).toList = l.toList ++ x :: r.toList := rfl

/-- `rb_link_node` at the place that the walk with `visit` ends at. -/
def insertBy (visit : α → Option Bool) (x : α) : RbTree α → Option (RbTree α)
  | .leaf => some (.node true .leaf x .leaf)
  | .node c l y r =>
    match visit y with
    | none => none
    | some true => (insertBy visit x l).map fun l => .node c l y r
    | some false => (insertBy visit x r).map fun r => .node c l y r

/-- `rb_first`. -/
def first (t : RbTree α) : Option α := t.toList.head?

theorem insertBy_isSome {visit : α → Option Bool} {x : α} {t : RbTree α}
    (h : ∀ y ∈ t.toList, (visit y).isSome) : ∃ t', insertBy visit x t = some t' := by
  induction t with
  | leaf => exact ⟨_, rfl⟩
  | node c l y r ihl ihr =>
    obtain ⟨b, hb⟩ := Option.isSome_iff_exists.mp (h y (by simp))
    cases b with
    | true =>
      obtain ⟨l', hl⟩ := ihl fun z hz => h z (by simp [hz])
      exact ⟨_, by simp [insertBy, hb, hl]; rfl⟩
    | false =>
      obtain ⟨r', hr⟩ := ihr fun z hz => h z (by simp [hz])
      exact ⟨_, by simp [insertBy, hb, hr]; rfl⟩

/-- The new node stands between the nodes before it and those after it. -/
theorem insertBy_toList {visit : α → Option Bool} {x : α} {t t' : RbTree α}
    (h : insertBy visit x t = some t') :
    ∃ l₁ l₂, t.toList = l₁ ++ l₂ ∧ t'.toList = l₁ ++ x :: l₂ := by
  induction t generalizing t' with
  | leaf =>
    cases h
    exact ⟨[], [], rfl, rfl⟩
  | node c l y r ihl ihr =>
    simp only [insertBy] at h
    split at h
    · cases h
    · obtain ⟨l', hl, rfl⟩ := Option.map_eq_some_iff.mp h
      obtain ⟨l₁, l₂, h1, h2⟩ := ihl hl
      exact ⟨l₁, l₂ ++ y :: r.toList, by simp [h1], by simp [h2]⟩
    · obtain ⟨r', hr, rfl⟩ := Option.map_eq_some_iff.mp h
      obtain ⟨l₁, l₂, h1, h2⟩ := ihr hr
      exact ⟨l.toList ++ y :: l₁, l₂, by simp [h1], by simp [h2]⟩

/-- A walk that goes left where the new key is smaller keeps the sequence ordered by the keys. -/
theorem insertBy_pairwise {key : α → Nat} {visit : α → Option Bool} {x : α} {t t' : RbTree α}
    (hvisit : ∀ y ∈ t.toList, visit y = some (decide (key x < key y)))
    (hs : t.toList.Pairwise fun a b => key a ≤ key b) (h : insertBy visit x t = some t') :
    t'.toList.Pairwise fun a b => key a ≤ key b := by
  induction t generalizing t' with
  | leaf =>
    cases h
    exact List.pairwise_singleton _ _
  | node c l y r ihl ihr =>
    obtain ⟨hsl, hyr, hlyr⟩ := List.pairwise_append.mp hs
    obtain ⟨hy, hsr⟩ := List.pairwise_cons.mp hyr
    rw [insertBy, hvisit y (by simp)] at h
    by_cases hlt : key x < key y
    · simp only [hlt, decide_true] at h
      obtain ⟨l', hl, rfl⟩ := Option.map_eq_some_iff.mp h
      obtain ⟨l₁, l₂, h1, h2⟩ := insertBy_toList hl
      refine List.pairwise_append.mpr ⟨ihl (fun z hz => hvisit z (by simp [hz])) hsl hl, hyr, ?_⟩
      intro a ha b hb
      rw [h2, List.mem_append, List.mem_cons] at ha
      have hab : a ∈ l.toList ∨ a = x := by
        rw [h1, List.mem_append]
        tauto
      rcases hab with ha | rfl
      · exact hlyr a ha b hb
      · rcases List.mem_cons.mp hb with rfl | hb
        · exact Nat.le_of_lt hlt
        · exact (Nat.le_of_lt hlt).trans (hy b hb)
    · simp only [hlt, decide_false] at h
      obtain ⟨r', hr, rfl⟩ := Option.map_eq_some_iff.mp h
      obtain ⟨l₁, l₂, h1, h2⟩ := insertBy_toList hr
      have hxr : ∀ b ∈ r'.toList, b ∈ r.toList ∨ b = x := fun b hb => by
        rw [h2, List.mem_append, List.mem_cons] at hb
        rw [h1, List.mem_append]
        tauto
      refine List.pairwise_append.mpr ⟨hsl, List.pairwise_cons.mpr ⟨fun b hb => ?_,
        ihr (fun z hz => hvisit z (by simp [hz])) hsr hr⟩, fun a ha b hb => ?_⟩
      · rcases hxr b hb with hb | rfl
        · exact hy b hb
        · exact Nat.le_of_not_lt hlt
      · rcases List.mem_cons.mp hb with rfl | hb
        · exact hlyr a ha b List.mem_cons_self
        · rcases hxr b hb with hb | rfl
          · exact hlyr a ha b (List.mem_cons_of_mem y hb)
          · exact (hlyr a ha y List.mem_cons_self).trans (Nat.le_of_not_lt hlt)

/-- The same where no key is there twice. -/
theorem insertBy_sorted {key : α → Nat} {visit : α → Option Bool} {x : α} {t t' : RbTree α}
    (hvisit : ∀ y ∈ t.toList, visit y = some (decide (key x < key y)))
    (hne : ∀ y ∈ t.toList, key x ≠ key y) (hs : t.toList.Pairwise fun a b => key a < key b)
    (h : insertBy visit x t = some t') : t'.toList.Pairwise fun a b => key a < key b := by
  have hle := insertBy_pairwise hvisit (hs.imp Nat.le_of_lt) h
  obtain ⟨l₁, l₂, h1, h2⟩ := insertBy_toList h
  have hdist : t'.toList.Pairwise fun a b => key a ≠ key b := by
    rw [h2, List.pairwise_middle Ne.symm, ← h1]
    exact List.pairwise_cons.mpr ⟨hne, hs.imp Nat.ne_of_lt⟩
  exact (hle.and hdist).imp fun h => Nat.lt_of_le_of_ne h.1 h.2

end RbTree

/-- `rb_insert_color` and `rb_erase`. -/
structure RbOps (α : Type) [BEq α] where
  insertColor : RbTree α → α → RbTree α
  erase : RbTree α → α → RbTree α
  toList_insertColor : ∀ t x, (insertColor t x).toList = t.toList
  toList_erase : ∀ t x, (erase t x).toList = t.toList.erase x

theorem RbOps.perm_insert {α : Type} [BEq α] (rb : RbOps α) {visit : α → Option Bool} {x : α}
    {t t' : RbTree α} (h : t.insertBy visit x = some t') :
    (rb.insertColor t' x).toList.Perm (x :: t.toList) := by
  obtain ⟨l₁, l₂, h1, h2⟩ := RbTree.insertBy_toList h
  rw [rb.toList_insertColor, h1, h2]
  exact List.perm_middle

/-! ## Without rebalancing -/

namespace RbTree

variable {α : Type}

/-- The tree with a black root. -/
def blacken : RbTree α → RbTree α
  | .leaf => .leaf
  | .node _ l x r => .node false l x r

/-- The nodes of `l` before those of `r`. -/
def join : RbTree α → RbTree α → RbTree α
  | .leaf, r => r
  | .node c l x r', r => .node c l x (join r' r)

/-- The tree without its first node `x`. -/
def remove [BEq α] (x : α) : RbTree α → RbTree α
  | .leaf => .leaf
  | .node c l y r =>
    if l.toList.contains x then .node c (remove x l) y r
    else if y == x then join l r
    else .node c l y (remove x r)

theorem toList_blacken (t : RbTree α) : t.blacken.toList = t.toList := by
  cases t <;> rfl

theorem toList_join (l r : RbTree α) : (join l r).toList = l.toList ++ r.toList := by
  induction l with
  | leaf => rfl
  | node c l x r' _ ih => simp [join, ih]

theorem toList_remove [BEq α] [LawfulBEq α] (x : α) (t : RbTree α) :
    (remove x t).toList = t.toList.erase x := by
  induction t with
  | leaf => rfl
  | node c l y r ihl ihr =>
    simp only [remove, toList_node, List.contains_iff_mem]
    split
    · rename_i hx
      rw [toList_node, ihl, List.erase_append_left _ hx]
    · rename_i hx
      rw [List.erase_append_right _ hx]
      split
      · rename_i hy
        rw [toList_join, eq_of_beq hy, List.erase_cons_head]
      · rename_i hy
        rw [toList_node, ihr, List.erase_cons_tail hy]

end RbTree

/-- A tree that is linked and unlinked without rebalancing. On trees of at most two nodes this is
what the kernel does. -/
def RbOps.unbalanced (α : Type) [BEq α] [LawfulBEq α] : RbOps α where
  insertColor t _ := t.blacken
  erase t x := (t.remove x).blacken
  toList_insertColor t _ := t.toList_blacken
  toList_erase t x := by rw [RbTree.toList_blacken, RbTree.toList_remove]

end Redroid
