import Mathlib.Algebra.Group.Pi.Lemmas
import Mathlib.Algebra.Group.Prod
import Mathlib.Tactic.Abel
import Redroid.Binder.RefCreate
import Redroid.Binder.RefLinks

/-!
# The counts, and what one operation does to them

For a call that runs without another one in between.

* `RefState.view`: the counts of all references, the local counts of all nodes and their temporary
  references; what is not there counts 0. `Change`: a difference of two views.
* `Moves q s s'`: what the operations of a call with the target `q` leave as it is.
* `Core`: the invariants that the operations keep.
* `Effect q c s s'`: both, and `c` is added to the counts.
-/

namespace Redroid.Binder.Refs

open RefState

instance instAddCommGroupInt32 : AddCommGroup Int32 where
  add_assoc := Int32.add_assoc
  zero_add := Int32.zero_add
  add_zero := Int32.add_zero
  nsmul := nsmulRec
  zsmul := zsmulRec
  neg_add_cancel := Int32.add_left_neg
  sub_eq_add_neg := Int32.sub_eq_add_neg
  add_comm := Int32.add_comm

/-- The counts of the references, the local counts and the temporary references of the nodes. -/
abbrev Change := (RefId → Bool → Int32) × (NodeId → Bool → Int) × (NodeId → Int)

namespace Change

/-- The count of `r` changes by `k`. -/
def count (r : RefId) (strong : Bool) (k : Int32) : Change := (Pi.single r (Pi.single strong k), 0, 0)

/-- One reference more on `r`. -/
def ref (r : RefId) (strong : Bool) : Change := count r strong 1

/-- One local reference more on `n`. -/
def loc (n : NodeId) (strong : Bool) : Change := (0, Pi.single n (Pi.single strong 1), 0)

/-- One temporary reference more on `n`. -/
def tmp (n : NodeId) : Change := (0, 0, Pi.single n 1)

theorem neg_ref (r : RefId) (strong : Bool) : -ref r strong = count r strong (-1) := by
  simp only [ref, count, Prod.neg_mk, ← Pi.single_neg, neg_zero]

end Change

/-- `local_strong_refs` or `local_weak_refs`. -/
def Node.localRefs (N : Node) (strong : Bool) : Int :=
  if strong then N.localStrongRefs else N.localWeakRefs

namespace RefState

/-- A count of a reference, 0 if there is none. -/
def countOf (s : RefState) (r : RefId) (strong : Bool) : Int32 := ((s.ref r).map (·.count strong)).getD 0

/-- A local count of a node, 0 if there is none. -/
def localOf (s : RefState) (n : NodeId) (strong : Bool) : Int :=
  ((s.node n).map (·.localRefs strong)).getD 0

def view (s : RefState) : Change := (s.countOf, s.localOf, s.tmpOf)

end RefState

/-- The references of other processes than `q`, the identities of the references and the nodes, and
the rest of the state are as before. -/
structure Moves (q : ProcId) (s s' : RefState) : Prop where
  env : s'.env = s.env
  refs : ∀ {r R'}, s'.ref r = some R' →
    (∃ R, s.ref r = some R ∧ R'.proc = R.proc ∧ R'.desc = R.desc ∧ R'.node = R.node) ∨ s.nextRef ≤ r
  others : ∀ {r R}, R.proc ≠ q → (s'.ref r = some R ↔ s.ref r = some R)
  ident : ∀ {n i}, s'.ident n = some i → s.ident n = some i ∨ s.nextNode ≤ n
  nextRef : s.nextRef ≤ s'.nextRef
  nextNode : s.nextNode ≤ s'.nextNode

/-- What a call finds, and what its operations keep: the tables and trees agree, and a node that is
about to be released is held. -/
structure Core (s : RefState) : Prop where
  tables : Tables s
  covered : Excess (0 ≤ ·) s
  links : Links s
  descs : Descs s
  held : ∀ {p n}, Leaving s p n → 0 < s.tmpOf n

variable {L : Layout} {s s' s₁ s₂ : RefState} {m n : NodeId} {N N' : Node} {p q : ProcId} {r : RefId}
  {R R' : Ref} {strong internal : Bool} {list : Option ThreadId} {c : Change}

/-! ## Moves -/

namespace Moves

theorem refl (q : ProcId) (s : RefState) : Moves q s s :=
  ⟨rfl, fun {_ R'} h => .inl ⟨R', h, rfl, rfl, rfl⟩, fun _ => Iff.rfl, .inl, le_refl _, le_refl _⟩

theorem trans (h₁ : Moves q s s₁) (h₂ : Moves q s₁ s₂) : Moves q s s₂ where
  env := h₂.env.trans h₁.env
  refs hR := by
    rcases h₂.refs hR with ⟨R₁, hR₁, hp, hd, hn⟩ | hlt
    · rcases h₁.refs hR₁ with ⟨R, hR, hp', hd', hn'⟩ | hlt
      · exact .inl ⟨R, hR, hp.trans hp', hd.trans hd', hn.trans hn'⟩
      · exact .inr hlt
    · exact .inr (h₁.nextRef.trans hlt)
  others hp := (h₂.others hp).trans (h₁.others hp)
  ident hi := by
    rcases h₂.ident hi with hi | hlt
    · exact h₁.ident hi
    · exact .inr (h₁.nextNode.trans hlt)
  nextRef := h₁.nextRef.trans h₂.nextRef
  nextNode := h₁.nextNode.trans h₂.nextNode

/-- The references are the same, and so are the identities, or a node has gone. -/
theorem sameRefs (henv : s'.env = s.env) (hs : SameRefs s s') (hk : Keeps s s' ∨ Frees s s') :
    Moves q s s' where
  env := henv
  refs {_ R'} hR := .inl ⟨R', by rwa [← hs.ref], rfl, rfl, rfl⟩
  others _ := by rw [hs.ref]
  ident {n i} hi := by
    rcases hk with ⟨hk, -⟩ | ⟨k, N, -, hk, -⟩
    · exact .inl (by rwa [← hk])
    · rw [hk, Function.update_apply] at hi
      split at hi
      · cases hi
      · exact .inl hi
  nextRef := hs.nextRef.ge
  nextNode := hs.nextNode

/-- The counts of one reference of `q` change. -/
theorem setRef (henv : s'.env = s.env) (hR : s.ref r = some R) (hp : R.proc = q)
    (hr : s'.ref = Function.update s.ref r (some R')) (hp' : R'.proc = R.proc) (hd : R'.desc = R.desc)
    (hn : R'.node = R.node) (hk : Keeps s s') (hnr : s'.nextRef = s.nextRef)
    (hnn : s'.nextNode = s.nextNode) : Moves q s s' where
  env := henv
  refs {k K} hK := by
    rw [hr, Function.update_apply] at hK
    split at hK
    · rename_i hkr
      cases hK
      exact .inl ⟨R, by rw [hkr, hR], hp', hd, hn⟩
    · exact .inl ⟨K, hK, rfl, rfl, rfl⟩
  others {k K} hK := by
    rw [hr, Function.update_apply]
    split
    · rename_i hkr
      subst hkr
      constructor
      · intro h
        cases h
        exact absurd (hp'.trans hp) hK
      · intro h
        rw [hR] at h
        cases h
        exact absurd hp hK
    · rfl
  ident hi := .inl (by rwa [← hk.1])
  nextRef := hnr.ge
  nextNode := hnn.ge

end Moves

/-! ## Core -/

namespace Core

theorem held_of (h : Core s) (henv : s'.env = s.env) (ht : ∀ n, s.tmpOf n ≤ s'.tmpOf n)
    (hl : Leaving s' p n) : 0 < s'.tmpOf n := by
  rw [Leaving, env_tasks henv] at hl
  exact (h.held hl).trans_le (ht n)

/-- A step that changes no identity, or frees one node. -/
theorem links_of (h : Core s) (henv : s'.env = s.env) (hheld : ∀ {p n}, Leaving s' p n → 0 < s'.tmpOf n)
    (hk : Keeps s s' ∨ Frees s s') : Links s' := by
  have hl := SameLeaving.of_tasks (env_tasks henv)
  rcases hk with hk | ⟨n, N, hN, hi, hn⟩
  · exact h.links.keep hk.1 hk.2 hl
  · refine h.links.free hN hi hn hl fun p hleft => ?_
    have hnone : s'.node n = none := ident_none.mp (by rw [hi, Function.update_self])
    have := hheld hleft
    rw [RefState.tmpOf, hnone] at this
    exact lt_irrefl _ this

theorem sameRefs (h : Core s) (henv : s'.env = s.env) (hs : SameRefs s s')
    (hheld : ∀ {p n}, Leaving s' p n → 0 < s'.tmpOf n) (hk : Keeps s s' ∨ Frees s s') : Core s' :=
  ⟨h.tables.same hs, h.covered.same (le_refl 0) hs, h.links_of henv hheld hk, h.descs.same hs, hheld⟩

end Core

theorem countOf_some (h : s.ref r = some R) : s.countOf r strong = R.count strong := by
  simp [RefState.countOf, h]

theorem localOf_some (h : s.node n = some N) : s.localOf n strong = N.localRefs strong := by
  simp [RefState.localOf, h]

theorem view_ext (hc : ∀ r b, s'.countOf r b = s.countOf r b + c.1 r b)
    (hl : ∀ n b, s'.localOf n b = s.localOf n b + c.2.1 n b)
    (ht : ∀ n, s'.tmpOf n = s.tmpOf n + c.2.2 n) : s'.view = s.view + c := by
  refine Prod.ext ?_ (Prod.ext ?_ ?_)
  · funext r b
    exact hc r b
  · funext n b
    exact hl n b
  · funext n
    exact ht n

/-- The references are the same. -/
theorem countOf_same (h : s'.ref = s.ref) : s'.countOf = s.countOf := by
  funext r b
  simp [RefState.countOf, h]

theorem localOf_setNode (n : NodeId) (b : Bool) :
    (s.setNode m N).localOf n b = if n = m then N.localRefs b else s.localOf n b := by
  simp only [RefState.localOf, RefState.setNode, Function.update_apply]
  split <;> rfl

theorem localOf_freeNode {o : Option ProcId} (n : NodeId) (b : Bool) :
    (s.freeNode m o).localOf n b = if n = m then 0 else s.localOf n b := by
  simp only [RefState.localOf, RefState.freeNode, Function.update_apply]
  split <;> rfl

/-- A change of the node that leaves its local counts. -/
theorem localOf_keep (N' : Node) (hN : s.node m = some N) (h : ∀ b, N'.localRefs b = N.localRefs b) (n : NodeId)
    (b : Bool) : (s.setNode m N').localOf n b = s.localOf n b := by
  rw [localOf_setNode]
  split
  · rename_i hn
    rw [hn, localOf_some hN, h]
  · rfl

/-- A node without local references is freed. -/
theorem localOf_free {o : Option ProcId} (hN : s.node m = some N) (h : ∀ b, N.localRefs b = 0)
    (n : NodeId) (b : Bool) : (s.freeNode m o).localOf n b = s.localOf n b := by
  rw [localOf_freeNode]
  split
  · rename_i hn
    rw [hn, localOf_some hN, h]
  · rfl

theorem dec_localRefs (N : Node) (b : Bool) : (N.dec strong internal).2.localRefs b =
    N.localRefs b - if internal = false ∧ strong = b then 1 else 0 := by
  obtain ⟨w, hw, -⟩ := N.dec_eq strong internal
  rw [hw]
  cases internal <;> cases strong <;> cases b <;> simp [Node.localRefs, Node.drop]

theorem dec_free_local (h : (N.dec strong internal).1 = true) (b : Bool) :
    N.localRefs b = if internal = false ∧ strong = b then 1 else 0 := by
  obtain ⟨-, h₁, h₂, -⟩ := Node.unused_iff.mp (Node.dec_free h).1
  rw [Node.drop_localStrong] at h₁
  rw [Node.drop_localWeak] at h₂
  cases internal <;> cases strong <;> cases b <;> simp_all [Node.localRefs] <;> omega

theorem inc_localRefs {mgr : Bool} (N : Node) (b : Bool) :
    (N.inc strong true list mgr).2.localRefs b = N.localRefs b := by
  by_cases h : (N.inc strong true list mgr).1 = true
  · obtain ⟨w, hw, -⟩ := Node.inc_succeeds h
    rw [hw]
    cases strong <;> cases b <;> rfl
  · rw [Node.inc_failed (by simpa using h)]

/-! ## Each operation -/

/-- What the operations do: `c` is added to the counts. -/
structure Effect (q : ProcId) (c : Change) (s s' : RefState) : Prop where
  moves : Moves q s s'
  core : Core s'
  view : s'.view = s.view + c

namespace Effect

theorem trans {c d : Change} (h₁ : Effect q c s s₁) (h₂ : Effect q d s₁ s₂) : Effect q (c + d) s s₂ :=
  ⟨h₁.moves.trans h₂.moves, h₂.core, by rw [h₂.view, h₁.view, add_assoc]⟩

theorem refl (h : Core s) : Effect q 0 s s := ⟨.refl q s, h, (add_zero _).symm⟩

theorem takeNode (h : Core s) (hs : s.takeNode n = some s') : Effect q (.tmp n) s s' := by
  obtain ⟨N, hN, rfl⟩ := takeNode_eq hs
  have hsame : SameRefs s (s.setNode n { N with tmpRefs := N.tmpRefs + 1 }) := .setNode hN rfl rfl
  have hk : Keeps s (s.setNode n { N with tmpRefs := N.tmpRefs + 1 }) :=
    ⟨ident_of_node rfl hN rfl, rfl⟩
  have ht (m : NodeId) : (s.setNode n { N with tmpRefs := N.tmpRefs + 1 }).tmpOf m =
      s.tmpOf m + (Change.tmp n).2.2 m := by
    rw [tmpOf_setNode]
    by_cases hm : m = n
    · subst hm
      simp [Change.tmp, tmpOf_some hN]
    · simp [Change.tmp, hm]
  refine ⟨.sameRefs rfl hsame (.inl hk), h.sameRefs rfl hsame (h.held_of rfl fun m => ?_) (.inl hk),
    view_ext (fun r b => ?_) (fun m b => ?_) ht⟩
  · have : 0 ≤ (Change.tmp n).2.2 m := by
      simp only [Change.tmp, Pi.single_apply]
      split <;> decide
    rw [ht]
    omega
  · rw [countOf_same rfl]
    exact (add_zero _).symm
  · rw [localOf_keep { N with tmpRefs := N.tmpRefs + 1 } hN fun b => rfl]
    exact (add_zero _).symm

/-- A temporary reference is dropped; it is not the last one of a node that is about to be released. -/
theorem putNode (h : Core s) (htwo : ∀ {p}, Leaving s p n → 1 < s.tmpOf n) (hs : s.putNode n = some s') :
    Effect q (-.tmp n) s s' := by
  have hsame := SameRefs.putNode hs
  have hk := putNode_links hs
  have henv := putNode_env hs
  have hheld {p : ProcId} {m : NodeId} (hl : Leaving s' p m) : 0 < s'.tmpOf m := by
    rw [Leaving, env_tasks henv] at hl
    rw [tmpOf_putNode hs]
    split
    · rename_i hm
      subst hm
      have := htwo hl
      omega
    · have := h.held hl
      omega
  refine ⟨.sameRefs henv hsame hk, h.sameRefs henv hsame hheld hk,
    view_ext (fun r b => ?_) (fun m b => ?_) fun m => ?_⟩
  · rw [countOf_same hsame.ref, show (-Change.tmp n).1 r b = 0 by simp [Change.tmp], add_zero]
  · have hz : ((-Change.tmp n).2.1 m b : Int) = 0 := by simp [Change.tmp]
    rw [hz, add_zero]
    obtain ⟨N, hN, -, ⟨-, rfl⟩ | ⟨hf, rfl⟩⟩ := putNode_cases hs
    · exact localOf_keep _ hN (fun b => by rw [dec_localRefs]; simp [Node.put, Node.localRefs]) m b
    · refine localOf_free hN (fun b => ?_) m b
      have := dec_free_local hf b
      simpa [Node.put, Node.localRefs] using this
  · rw [tmpOf_putNode hs]
    by_cases hm : n = m
    · subst hm
      simp [Change.tmp, sub_eq_add_neg]
    · simp [Change.tmp, hm, Ne.symm hm]

theorem initNode {ptr cookie : Nat} (h : Core s) (hs : s.initNode p ptr cookie = some (n, s')) :
    Effect q (.tmp n) s s' := by
  rcases initNode_cases hs with ⟨N, -, hN, rfl⟩ | ⟨hnone, rfl, rfl⟩
  · refine takeNode h ?_
    simp [RefState.takeNode, hN]
  have hsame := SameRefs.initNode hs h.tables.fresh
  have hi : (s.setNode s.nextNode (.fresh p ptr cookie)).ident =
      Function.update s.ident s.nextNode (some (ptr, cookie, some p)) := ident_setNode
  have henv := initNode_env hs
  refine ⟨⟨henv, fun {_ R'} hR => .inl ⟨R', hR, rfl, rfl, rfl⟩, fun _ => Iff.rfl, fun {m i} hm => ?_,
    le_refl _, Nat.le_succ _⟩, ⟨h.tables.same hsame, h.covered.same (le_refl 0) hsame, ?_,
      h.descs.same hsame, h.held_of henv fun m => ?_⟩,
    view_ext (fun r b => (add_zero _).symm) (fun m b => ?_) fun m => ?_⟩
  · by_cases hmn : m = s.nextNode
    · exact .inr hmn.ge
    · refine .inl ?_
      rw [← hm]
      exact (by rw [hi, Function.update_of_ne hmn] :
        (s.setNode s.nextNode (.fresh p ptr cookie)).ident m = s.ident m).symm
  · exact h.links.new (ident_none.mpr h.tables.fresh) hnone hi rfl
      (SameLeaving.of_tasks (env_tasks henv))
  · rw [tmpOf_initNode hs h.tables.fresh]
    split <;> omega
  · show (s.setNode s.nextNode (.fresh p ptr cookie)).localOf m b = s.localOf m b + 0
    rw [localOf_setNode, add_zero]
    split
    · rename_i hm
      subst hm
      cases b <;> simp [RefState.localOf, h.tables.fresh, Node.localRefs, Node.fresh]
    · rfl
  · rw [tmpOf_initNode hs h.tables.fresh]
    by_cases hm : s.nextNode = m
    · subst hm
      simp [Change.tmp]
    · simp [Change.tmp, hm, Ne.symm hm]

/-- The counts of the reference `r` of `q` change, and its node as far as the local counts allow. -/
theorem setRef {k : Int32} (henv : s'.env = s.env) (hcore : Core s') (hR : s.ref r = some R)
    (hp : R.proc = q) (hr : s'.ref = Function.update s.ref r (some R')) (hp' : R'.proc = R.proc)
    (hd : R'.desc = R.desc) (hn : R'.node = R.node) (hk : Keeps s s') (hnr : s'.nextRef = s.nextRef)
    (hnn : s'.nextNode = s.nextNode) (hl : s'.localOf = s.localOf) (ht : s'.tmpOf = s.tmpOf)
    (hc : ∀ b, R'.count b = R.count b + if b = strong then k else 0) :
    Effect q (.count r strong k) s s' := by
  refine ⟨.setRef henv hR hp hr hp' hd hn hk hnr hnn, hcore,
    view_ext (fun m b => ?_) (fun m b => ?_) fun m => ?_⟩
  · by_cases hm : m = r
    · subst hm
      rw [countOf_some hR, countOf_some (by rw [hr, Function.update_self]), hc]
      by_cases hb : b = strong
      · subst hb
        simp [Change.count]
      · simp [Change.count, hb]
    · have : s'.countOf m b = s.countOf m b := by
        simp only [RefState.countOf, hr, Function.update_of_ne hm]
      simp [this, Change.count, hm]
  · rw [hl]
    exact (add_zero _).symm
  · rw [ht]
    exact (add_zero _).symm

theorem incRef (h : Core s) (hp : ∀ R, s.ref r = some R → R.proc = q)
    (hs : s.incRef L r strong list = some (true, s')) : Effect q (.ref r strong) s s' := by
  have henv := incRef_env hs
  have hk := incRef_links hs
  have ht : s'.tmpOf = s.tmpOf := by
    funext n
    exact tmpOf_incRef hs
  have hheld {p : ProcId} {n : NodeId} : Leaving s' p n → 0 < s'.tmpOf n :=
    h.held_of henv fun n => (congrFun ht n).ge
  have hcore : Core s' := ⟨h.tables.incRef hs, h.covered.nonneg_incRef h.tables hs,
    h.links_of henv hheld (.inl hk), h.descs.incRef hs, hheld⟩
  have hc (R : Ref) (b : Bool) : (R.setCount strong (R.count strong + 1)).count b =
      R.count b + if b = strong then 1 else 0 := by
    rw [Ref.count_setCount]
    split
    · rename_i hb
      rw [hb]
    · exact (add_zero _).symm
  obtain ⟨R, hR, ⟨hf, -, rfl⟩ | ⟨-, -, rfl⟩ | ⟨-, -, N, hN, hok, rfl⟩⟩ := incRef_cases hs
  · cases hf
  · exact setRef henv hcore hR (hp R hR) rfl (by simp) (by simp) (by simp) hk rfl rfl rfl ht (hc R)
  · refine setRef henv hcore hR (hp R hR) rfl (by simp) (by simp) (by simp) hk rfl rfl ?_ ht (hc R)
    funext m b
    exact localOf_keep _ hN (fun b => inc_localRefs N b) m b

theorem decRef {last : Bool} (h : Core s) (hp : ∀ R, s.ref r = some R → R.proc = q)
    (hz : s.countOf r strong ≠ 0) (hs : s.decRef r strong = some (last, s')) :
    Effect q (-.ref r strong) s s' ∧ ∀ R', s'.ref r = some R' → last = R'.unused := by
  have henv := decRef_env hs
  have hk := decRef_links h.tables hs
  have ht : s'.tmpOf = s.tmpOf := by
    funext n
    exact tmpOf_decRef hs
  have hheld {p : ProcId} {n : NodeId} : Leaving s' p n → 0 < s'.tmpOf n :=
    h.held_of henv fun n => (congrFun ht n).ge
  have hcore : Core s' :=
    ⟨h.tables.decRef hs, h.covered.decRef h.tables hs, h.links_of henv hheld (.inl hk),
      h.descs.decRef h.tables hs, hheld⟩
  have hc (R : Ref) (b : Bool) : (R.setCount strong (R.count strong - 1)).count b =
      R.count b + if b = strong then -1 else 0 := by
    rw [Ref.count_setCount]
    split
    · rename_i hb
      rw [hb, sub_eq_add_neg]
    · exact (add_zero _).symm
  rw [Change.neg_ref]
  obtain ⟨R, hR, ⟨hc0, -⟩ | ⟨hne, rfl, -, rfl⟩ | ⟨hc1, rfl, hst, N, hN, rfl⟩⟩ :=
    decRef_cases hs fun R hR => h.tables.onNode r R hR
  · rw [countOf_some hR] at hz
    exact absurd hc0 hz
  · refine ⟨setRef henv hcore hR (hp R hR) rfl (by simp) (by simp) (by simp) hk rfl rfl rfl ht (hc R),
      fun R' hR' => ?_⟩
    simp only [RefState.setRef, Function.update_self, Option.some.injEq] at hR'
    rw [hR']
  · refine ⟨setRef henv hcore hR (hp R hR) rfl (by simp) (by simp) (by simp) hk rfl rfl ?_ ht
      (hc R), fun R' hR' => ?_⟩
    · funext m b
      exact localOf_keep _ hN (fun b => by rw [dec_localRefs]; simp) m b
    · simp only [RefState.setRef, Function.update_self, Option.some.injEq] at hR'
      rw [hR']

theorem addRef (h : Core s) (hnone : s.getRefForNode q n = none) (hs : s.addRef L q n = some s') :
    Effect q 0 s s' := by
  have henv := addRef_env hs
  have hk := addRef_links hs
  have ht {m : NodeId} : s'.tmpOf m = s.tmpOf m := tmpOf_addRef hs
  have hheld {p : ProcId} {n : NodeId} : Leaving s' p n → 0 < s'.tmpOf n := h.held_of henv fun _ => ht.ge
  have hcore : Core s' :=
    ⟨h.tables.addRef hnone hs, h.covered.addRef h.tables hs, h.links_of henv hheld (.inl hk),
      h.descs.addRef hs, hheld⟩
  have hfresh := h.tables.freshRef
  obtain ⟨N, qs, hN, -, rfl⟩ := addRef_eq hs
  have hcase {k : RefId} {K : Ref} (hK : Function.update s.ref s.nextRef
      (some ⟨q, s.nextDesc L q n, n, 0, 0⟩) k = some K) :
      (k = s.nextRef ∧ K.proc = q) ∨ s.ref k = some K := by
    rw [Function.update_apply] at hK
    split at hK
    · cases hK
      exact .inl ⟨‹_›, rfl⟩
    · exact .inr hK
  refine ⟨⟨henv, fun {k K} hK => ?_, fun {k K} hK => ?_, fun hi => .inl (by rwa [← hk.1]),
    Nat.le_succ _, le_refl _⟩, hcore, view_ext (fun k b => ?_) (fun m b => ?_) fun m => ?_⟩
  · rcases hcase hK with ⟨rfl, -⟩ | hK
    · exact .inr (le_refl _)
    · exact .inl ⟨K, hK, rfl, rfl, rfl⟩
  · constructor
    · intro hk'
      rcases hcase hk' with ⟨-, hp⟩ | hk'
      · exact absurd hp hK
      · exact hk'
    · intro hk'
      have hne : k ≠ s.nextRef := by
        rintro rfl
        rw [hfresh] at hk'
        cases hk'
      rw [← hk']
      exact Function.update_of_ne hne ..
  · refine Eq.trans ?_ (add_zero _).symm
    simp only [RefState.countOf, RefState.setRef, RefState.setNode, Function.update_apply]
    split
    · rename_i hk
      rw [hk, hfresh]
      cases b <;> rfl
    · rfl
  · refine Eq.trans ?_ (add_zero _).symm
    exact localOf_keep { N with refs := s.nextRef :: N.refs } hN (fun b => rfl) m b
  · rw [ht]
    exact (add_zero _).symm

theorem cleanupRef (h : Core s) (hR : s.ref r = some R) (hp : R.proc = q) (hu : R.unused = true)
    (hs : s.cleanupRef r = some s') : Effect q 0 s s' ∧ s'.ref r = none := by
  have henv := cleanupRef_env hs
  have hk := cleanupRef_links h.tables hs
  have ht {m : NodeId} : s'.tmpOf m = s.tmpOf m := tmpOf_cleanupRef h.tables hs
  have hheld {p : ProcId} {n : NodeId} : Leaving s' p n → 0 < s'.tmpOf n := h.held_of henv fun _ => ht.ge
  have hcore : Core s' :=
    ⟨h.tables.cleanupRef hs, h.covered.cleanupRef h.tables hs, h.links_of henv hheld hk,
      h.descs.cleanupRef h.tables hs, hheld⟩
  have hu' : R.strong = 0 ∧ R.weak = 0 := by simpa [Ref.unused] using hu
  have href : s'.ref = Function.update s.ref r none ∧ s'.nextRef = s.nextRef ∧
      s'.nextNode = s.nextNode ∧ ∀ m b, s'.localOf m b = s.localOf m b := by
    obtain ⟨R', N, w, hR', hN, -, ⟨-, rfl⟩ | ⟨hf, rfl⟩⟩ :=
      cleanupRef_cases hs fun R hR => h.tables.onNode r R hR
    · have hl (b : Bool) : ((N.unref r (R'.strong != 0) w).dec false true).2.localRefs b =
          N.localRefs b := by
        rw [dec_localRefs]
        cases b <;> simp [Node.unref, Node.localRefs, Node.drop_localStrong, Node.drop_localWeak]
      exact ⟨rfl, rfl, rfl, fun m b => localOf_keep _ hN hl m b⟩
    · refine ⟨rfl, rfl, rfl, fun m b => ?_⟩
      refine (localOf_free hN (fun b => ?_) m b : (s.freeNode R'.node N.proc).localOf m b = _)
      have := dec_free_local hf b
      cases b <;> simpa [Node.unref, Node.localRefs, Node.drop_localStrong, Node.drop_localWeak] using this
  obtain ⟨href, hnr, hnn, hl⟩ := href
  have hcase {k : RefId} {K : Ref} (hK : s'.ref k = some K) : k ≠ r ∧ s.ref k = some K := by
    rw [href, Function.update_apply] at hK
    split at hK
    · cases hK
    · exact ⟨‹_›, hK⟩
  refine ⟨⟨⟨henv, fun {k K} hK => .inl ⟨K, (hcase hK).2, rfl, rfl, rfl⟩,
    fun {k K} hK => ⟨fun hk => (hcase hk).2, fun hk => ?_⟩, fun {m i} hi => ?_, hnr.ge, hnn.ge⟩, hcore,
    view_ext (fun k b => ?_) (fun m b => ?_) fun m => ?_⟩, by rw [href, Function.update_self]⟩
  · have hne : k ≠ r := by
      rintro rfl
      rw [hR] at hk
      cases hk
      exact hK hp
    rw [href, Function.update_of_ne hne, hk]
  · rcases hk with ⟨hk, -⟩ | ⟨j, N, -, hk, -⟩
    · exact .inl (by rwa [← hk])
    · rw [hk, Function.update_apply] at hi
      split at hi
      · cases hi
      · exact .inl hi
  · refine Eq.trans ?_ (add_zero _).symm
    simp only [RefState.countOf, href, Function.update_apply]
    split
    · rename_i hk
      rw [hk, hR]
      cases b
      · simp [Ref.count, hu'.2]
      · simp [Ref.count, hu'.1]
    · rfl
  · rw [hl]
    exact (add_zero _).symm
  · rw [ht]
    exact (add_zero _).symm

/-- A local increment of the node. -/
theorem incLocal {mgr : Bool} (h : Core s) (hN : s.node n = some N) :
    Effect q (.loc n strong) s (s.setNode n (N.inc strong false none mgr).2) := by
  rw [Node.inc_local]
  have hsame : SameRefs s (s.setNode n (N.bump strong false)) :=
    .setNode hN (by cases strong <;> rfl) (by cases strong <;> rfl)
  have hk : Keeps s (s.setNode n (N.bump strong false)) :=
    ⟨ident_of_node rfl hN (by cases strong <;> rfl), rfl⟩
  have ht (m : NodeId) : (s.setNode n (N.bump strong false)).tmpOf m = s.tmpOf m :=
    tmpOf_keep hN (by cases strong <;> rfl)
  refine ⟨.sameRefs rfl hsame (.inl hk), h.sameRefs rfl hsame (h.held_of rfl fun m => (ht m).ge) (.inl hk),
    view_ext (fun r b => (add_zero _).symm) (fun m b => ?_) fun m => ?_⟩
  · rw [localOf_setNode]
    by_cases hm : m = n
    · subst hm
      rw [localOf_some hN]
      cases strong <;> cases b <;> simp [Change.loc, Node.bump, Node.localRefs]
    · simp [Change.loc, hm]
  · rw [ht]
    exact (add_zero _).symm

/-- A local decrement of the node. -/
theorem decNode (h : Core s) (hs : s.decNode n strong false = some s') :
    Effect q (-.loc n strong) s s' := by
  have hsame := SameRefs.decNode hs
  have hk := decNode_links hs
  have henv := decNode_env hs
  have hheld {p : ProcId} {m : NodeId} : Leaving s' p m → 0 < s'.tmpOf m :=
    h.held_of henv fun m => (tmpOf_decNode hs).ge
  refine ⟨.sameRefs henv hsame hk, h.sameRefs henv hsame hheld hk,
    view_ext (fun r b => ?_) (fun m b => ?_) fun m => ?_⟩
  · rw [countOf_same hsame.ref, show (-Change.loc n strong).1 r b = 0 by simp [Change.loc], add_zero]
  · obtain ⟨N, hN, ⟨-, rfl⟩ | ⟨hf, rfl⟩⟩ := decNode_cases hs
    · rw [localOf_setNode]
      by_cases hm : m = n
      · subst hm
        rw [localOf_some hN, dec_localRefs]
        cases strong <;> cases b <;> simp [Change.loc, sub_eq_add_neg]
      · simp [Change.loc, hm]
    · rw [localOf_freeNode]
      by_cases hm : m = n
      · subst hm
        rw [localOf_some hN, dec_free_local hf]
        cases strong <;> cases b <;> simp [Change.loc]
      · simp [Change.loc, hm]
  · rw [tmpOf_decNode hs]
    exact (add_zero _).symm

end Effect

end Redroid.Binder.Refs
