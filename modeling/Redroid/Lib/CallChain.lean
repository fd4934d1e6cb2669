import Mathlib.Logic.Relation
import Mathlib.Data.List.Chain
import Mathlib.Logic.Function.Basic
import Mathlib.Order.WellFoundedSet
import Mathlib.Tactic.Common

/-!
# Calls that wait for each other

Threads `θ` call each other. A thread that calls waits; the thread that serves the call may call in
turn, also back into a thread that waits. Each thread has a stack: the calls it has made and the
calls it serves, the last one first.

* `Net`: the stacks; for each call its caller, its parent (the call that the caller served when it
  called) and where it is. A thread may leave: its calls have no caller any more, and the calls that
  it served wait for those.
* `Net.Ok due`: the invariant. A call has one child at most, so that the descendants of a call are a
  chain; the call on top of a waiting thread's call is one of its descendants. `due x t`: `t` is on
  its way to `x`.
* `Ok.top`: a call that nobody serves and that waits for no other is on top of its caller's stack, so
  that its caller can go on. `Ok.nearest`: so is the nearest call of a thread above a call that its
  own server has not passed on.
* `Ok.new`, `Ok.call`, `Ok.addDue`, `Ok.serve`, `Ok.reply`, `Ok.resume`, `Ok.finish`, `Ok.pass`,
  `Ok.exit`: every step keeps the invariant.
* `Net.Waits y x`: `y` waits for a call that has come to `x`. A call of `x` may come to `y` then
  (`Net.Waits.comes`). `Net.Ends`: no sequence of nested calls is infinite.
-/

namespace Redroid.CallChain

open Relation

/-- An entry of a stack: a call that the thread has made, or one that it serves. -/
inductive Entry (τ : Type) where
  | call (t : τ)
  | serve (t : τ)
  deriving DecidableEq

def Entry.id {τ : Type} : Entry τ → τ
  | .call t | .serve t => t

/-- Where a call is: at no place, somewhere between the threads, with the thread that serves it, or
left by that thread. -/
inductive Status (θ : Type) where
  | absent
  | held
  | served (x : θ)
  | left
  deriving DecidableEq

structure Net (θ τ : Type) where
  stack : θ → List (Entry τ)
  caller : τ → Option θ
  parent : τ → Option τ
  status : τ → Status θ

variable {θ τ : Type}

namespace Net

/-- The server of `p` has made the call `c`. -/
def Calls (g : Net θ τ) (p c : τ) : Prop := g.parent c = some p

/-- What may lie on what. -/
def Above (g : Net θ τ) : Entry τ → Entry τ → Prop
  | .call _, .serve _ => True
  | .serve t, .call u => TransGen g.Calls u t
  | _, _ => False

end Net

/-- `t` may come to `x`: nothing else is on its way there if the stack is empty; else `x` waits for a
call that `t` descends from. -/
def Due (g : Net θ τ) (due : θ → τ → Prop) (x : θ) (t : τ) : Prop :=
  (g.stack x = [] ∧ ∀ u, due x u → u = t) ∨
    ∃ u l, g.stack x = .call u :: l ∧ TransGen g.Calls u t

structure Ok (g : Net θ τ) (due : θ → τ → Prop) : Prop where
  serve_iff : ∀ {x t}, .serve t ∈ g.stack x ↔ g.status t = .served x
  call_iff : ∀ {x t}, .call t ∈ g.stack x ↔ g.caller t = some x
  nodup : ∀ x, (g.stack x).Nodup
  shape : ∀ x, (g.stack x).IsChain g.Above
  callParent : ∀ {x l₁ c l₂}, g.stack x = l₁ ++ .call c :: l₂ →
    g.parent c = l₂.head?.map Entry.id
  unique : ∀ {p c d}, g.Calls p c → g.Calls p d → c = d
  parent : ∀ {p c}, g.Calls p c → (∃ x, g.caller c = some x ∧ g.status p = .served x) ∨
    (g.caller c = none ∧ g.status p = .left)
  left : ∀ {p}, g.status p = .left → ∃ c, g.Calls p c
  absent : ∀ {t}, g.status t = .absent → g.caller t = none ∧ g.parent t = none
  due_held : ∀ {x t}, due x t → g.status t = .held
  due : ∀ {x t}, due x t → Due g due x t

variable {g : Net θ τ} {due due' : θ → τ → Prop} {x y z : θ} {t u v w p c d : τ} {l : List (Entry τ)}

theorem Ok.rightUnique (h : Ok g due) : Relator.RightUnique g.Calls := fun _ _ _ => h.unique

theorem Ok.parent_ne_held (h : Ok g due) (hp : g.status p = .held) : ¬ g.Calls p c := by
  intro hc
  rcases h.parent hc with ⟨x, -, hs⟩ | ⟨-, hs⟩ <;> rw [hp] at hs <;> cases hs

theorem Ok.not_transGen (h : Ok g due) (hp : g.status p = .held) : ¬ TransGen g.Calls p t := by
  intro ht
  obtain ⟨c, hc, -⟩ := TransGen.head'_iff.mp ht
  exact h.parent_ne_held hp hc

/-- An entry that is not at the top has one above it. -/
theorem exists_above {e : Entry τ} (he : e ∈ l) :
    (∃ r, l = e :: r) ∨ ∃ l₁ f l₂, l = l₁ ++ f :: e :: l₂ := by
  obtain ⟨l₁, l₂, rfl⟩ := List.append_of_mem he
  rcases List.eq_nil_or_concat l₁ with rfl | ⟨l₀, f, rfl⟩
  · exact .inl ⟨l₂, rfl⟩
  · exact .inr ⟨l₀, f, l₂, by simp⟩

theorem Ok.above (h : Ok g due) {l₁ l₂ : List (Entry τ)} {e f : Entry τ}
    (hl : g.stack x = l₁ ++ f :: e :: l₂) : g.Above f e := by
  have := h.shape x
  rw [hl] at this
  exact (List.isChain_append_cons_cons.mp this).2.1

/-- What lies on a call descends from it. -/
theorem Ok.above_call (h : Ok g due) (hc : g.caller u = some x) :
    (∃ r, g.stack x = .call u :: r) ∨
      ∃ w, g.status w = .served x ∧ TransGen g.Calls u w := by
  rcases exists_above (h.call_iff.mpr hc) with hr | ⟨l₁, f, l₂, hl⟩
  · exact .inl hr
  · have ha := h.above hl
    cases f with
    | call d => exact ha.elim
    | serve w => exact .inr ⟨w, h.serve_iff.mp (by rw [hl]; simp), ha⟩

/-- A call that is held is on top of its caller's stack. -/
theorem Ok.top (h : Ok g due) (ht : g.status t = .held) (hc : g.caller t = some y) :
    ∃ r, g.stack y = .call t :: r := by
  rcases h.above_call hc with hr | ⟨w, -, hw⟩
  · exact hr
  · exact absurd hw (h.not_transGen ht)

/-- Two descendants without a child are the same. -/
theorem Ok.descendant_unique (h : Ok g due) (hv : TransGen g.Calls u v) (hw : TransGen g.Calls u w)
    (hv' : ∀ c, ¬ g.Calls v c) (hw' : ∀ c, ¬ g.Calls w c) : v = w := by
  rcases ReflTransGen.total_of_right_unique h.rightUnique hv.to_reflTransGen hw.to_reflTransGen with
    hr | hr
  · rcases hr.cases_head with rfl | ⟨c, hc, -⟩
    · rfl
    · exact absurd hc (hv' c)
  · rcases hr.cases_head with rfl | ⟨c, hc, -⟩
    · rfl
    · exact absurd hc (hw' c)

/-- The child of a call that is served is a call of the server. -/
theorem Ok.child_of_served (h : Ok g due) (hp : g.status p = .served x) (hc : g.Calls p c) :
    g.caller c = some x := by
  rcases h.parent hc with ⟨y, hy, hs⟩ | ⟨-, hs⟩ <;> rw [hp] at hs <;> cases hs
  exact hy

/-- One call is due at a thread. -/
theorem Ok.due_unique (h : Ok g due) (ht : due x t) (hu : due x u) : u = t := by
  rcases h.due ht with ⟨-, hone⟩ | ⟨v, l, hl, hvt⟩
  · exact hone u hu
  · rcases h.due hu with ⟨hnil, -⟩ | ⟨w, l', hl', hwu⟩
    · rw [hnil] at hl
      cases hl
    · rw [hl] at hl'
      cases hl'
      exact h.descendant_unique hwu hvt (fun _ => h.parent_ne_held (h.due_held hu))
        fun _ => h.parent_ne_held (h.due_held ht)

/-- The call on top of a stack has no child. -/
theorem Ok.top_serve (h : Ok g due) (hl : g.stack x = .serve p :: l) : ¬ g.Calls p c := by
  intro hc
  have hp : g.status p = .served x := h.serve_iff.mp (by rw [hl]; simp)
  have hcall := h.call_iff.mpr (h.child_of_served hp hc)
  obtain ⟨l₁, l₂, hs⟩ := List.append_of_mem hcall
  have hpar := h.callParent hs
  rw [show g.parent c = some p from hc] at hpar
  cases l₂ with
  | nil => cases hpar
  | cons e l₂ =>
    have ha := h.above hs
    cases e with
    | call d => exact ha.elim
    | serve q =>
      obtain rfl : p = q := Option.some.inj hpar
      have hn := h.nodup x
      rw [hl] at hs
      cases l₁ with
      | nil => cases hs
      | cons f l₁ =>
        cases hs
        rw [hl] at hn
        exact (List.nodup_cons.mp hn).1 (by simp)

/-- `x` serves `v` and has not called. The nearest call of `y` that `v` descends from is on top of the
stack of `y`. -/
theorem Ok.nearest (h : Ok g due) (hx : g.stack x = .serve v :: l) (hxy : x ≠ y)
    (hc : g.caller u = some y) (huv : ReflTransGen g.Calls u v)
    (hnear : ∀ c, TransGen g.Calls u c → ReflTransGen g.Calls c v → g.caller c ≠ some y) :
    ∃ r, g.stack y = .call u :: r := by
  rcases h.above_call hc with hr | ⟨w, hw, huw⟩
  · exact hr
  have hv : g.status v = .served x := h.serve_iff.mp (by rw [hx]; simp)
  have hvw : ¬ TransGen g.Calls v w := fun hvw => by
    obtain ⟨c, hc, -⟩ := TransGen.head'_iff.mp hvw
    exact h.top_serve hx hc
  have hwv : ReflTransGen g.Calls w v := by
    rcases ReflTransGen.total_of_right_unique h.rightUnique huv huw.to_reflTransGen with hr | hr
    · rcases reflTransGen_iff_eq_or_transGen.mp hr with rfl | hr
      · exact .refl
      · exact absurd hr hvw
    · exact hr
  rcases reflTransGen_iff_eq_or_transGen.mp hwv with rfl | hwv
  · rw [hw] at hv
    cases hv
    exact absurd rfl hxy
  · obtain ⟨c, hwc, hcv⟩ := TransGen.head'_iff.mp hwv
    exact absurd (h.child_of_served hw hwc) (hnear c (huw.tail hwc) hcv)

/-! ## Steps -/

/-- The relation of a net with fewer edges: none into `t`, which has no child. -/
theorem transGen_of_ne {r r' : τ → τ → Prop} (ht : ∀ c, ¬ r t c) (hr : ∀ p c, r p c → c ≠ t → r' p c)
    (hw : w ≠ t) (h : TransGen r u w) : TransGen r' u w := by
  have hne : ∀ {a b}, TransGen r a b → b ≠ t → TransGen r' a b := by
    intro a b hab
    induction hab with
    | single hab => exact fun hb => .single (hr _ _ hab hb)
    | tail hab hbc ih =>
      intro hc
      refine (ih ?_).tail (hr _ _ hbc hc)
      rintro rfl
      exact ht _ hbc
  exact hne h hw

theorem Ok.absent_calls (h : Ok g due) (ht : g.status t = .absent) : ¬ g.Calls p t ∧ ¬ g.Calls t c := by
  refine ⟨fun hp => ?_, fun hc => ?_⟩
  · have := (h.absent ht).2
    rw [show g.parent t = some p from hp] at this
    cases this
  · rcases h.parent hc with ⟨x, -, hs⟩ | ⟨-, hs⟩ <;> rw [ht] at hs <;> cases hs

/-- Less may be on its way. -/
theorem Ok.mono (h : Ok g due) (hd : ∀ x t, due' x t → due x t) : Ok g due' :=
  { h with
    due_held := fun ht => h.due_held (hd _ _ ht)
    due := fun ht => (h.due (hd _ _ ht)).imp_left fun ⟨hs, hu⟩ => ⟨hs, fun u hu' => hu u (hd _ _ hu')⟩ }

/-- `t` sets out for `x`. -/
theorem Ok.addDue (h : Ok g due) (ht : g.status t = .held)
    (hx : (g.stack x = [] ∧ ∀ u, ¬ due x u) ∨ ∃ u l, g.stack x = .call u :: l ∧ TransGen g.Calls u t)
    (hd : ∀ y u, due' y u → due y u ∨ (y = x ∧ u = t)) : Ok g due' := by
  refine { h with due_held := fun {y u} hu => ?_, due := fun {y u} hu => ?_ }
  · rcases hd y u hu with hu | ⟨-, rfl⟩
    · exact h.due_held hu
    · exact ht
  · rcases hd y u hu with hu | ⟨rfl, rfl⟩
    · refine (h.due hu).imp_left fun ⟨hs, hone⟩ => ⟨hs, fun w hw => ?_⟩
      rcases hd y w hw with hw | ⟨rfl, rfl⟩
      · exact hone w hw
      · rcases hx with ⟨-, hno⟩ | ⟨v, l, hl, -⟩
        · exact absurd hu (hno u)
        · rw [hs] at hl
          cases hl
    · refine hx.imp_left fun ⟨hs, hno⟩ => ⟨hs, fun w hw => ?_⟩
      rcases hd y w hw with hw | ⟨-, rfl⟩
      · exact absurd hw (hno w)
      · rfl

/-- A step that leaves the stacks and the calls. -/
theorem Ok.setStatus {status' : τ → Status θ} (h : Ok g due)
    (hserved : ∀ t x, status' t = .served x ↔ g.status t = .served x)
    (hleft : ∀ t, status' t = .left ↔ g.status t = .left)
    (habsent : ∀ t, status' t = .absent → g.caller t = none ∧ g.parent t = none)
    (hheld : ∀ x t, due' x t → status' t = .held) (hd : ∀ x t, due' x t → due x t) :
    Ok { g with status := status' } due' where
  serve_iff := h.serve_iff.trans (hserved _ _).symm
  call_iff := h.call_iff
  nodup := h.nodup
  shape := h.shape
  callParent := h.callParent
  unique := h.unique
  parent hc := by
    refine (h.parent hc).imp (fun ⟨x, hx, hs⟩ => ⟨x, hx, (hserved _ _).mpr hs⟩)
      fun ⟨hn, hs⟩ => ⟨hn, (hleft _).mpr hs⟩
  left hp := h.left ((hleft _).mp hp)
  absent := habsent _
  due_held := hheld _ _
  due ht := (h.mono hd).due ht

/-! ### Pushing and popping -/

section Stack

variable {α : Type} [DecidableEq θ] {stack : θ → List α} {R : α → α → Prop} {e f : α} {r : List α}

theorem mem_push : e ∈ Function.update stack x (f :: stack x) y ↔ (y = x ∧ e = f) ∨ e ∈ stack y := by
  rcases eq_or_ne y x with rfl | hne
  · simp
  · simp [hne]

theorem nodup_push (h : ∀ y, (stack y).Nodup) (hf : f ∉ stack x) (y : θ) :
    (Function.update stack x (f :: stack x) y).Nodup := by
  rcases eq_or_ne y x with rfl | hne
  · rw [Function.update_self]
    exact List.nodup_cons.mpr ⟨hf, h y⟩
  · rw [Function.update_of_ne hne]
    exact h y

theorem isChain_push (h : ∀ y, (stack y).IsChain R) (hf : ∀ e ∈ (stack x).head?, R f e) (y : θ) :
    (Function.update stack x (f :: stack x) y).IsChain R := by
  rcases eq_or_ne y x with rfl | hne
  · rw [Function.update_self]
    exact List.isChain_cons.mpr ⟨hf, h y⟩
  · rw [Function.update_of_ne hne]
    exact h y

theorem mem_pop (hn : (stack x).Nodup) (hx : stack x = f :: r) :
    e ∈ Function.update stack x r y ↔ e ∈ stack y ∧ ¬ (y = x ∧ e = f) := by
  rcases eq_or_ne y x with rfl | hne
  · rw [hx] at hn ⊢
    rw [Function.update_self, List.mem_cons]
    constructor
    · intro he
      refine ⟨.inr he, ?_⟩
      rintro ⟨-, rfl⟩
      exact (List.nodup_cons.mp hn).1 he
    · rintro ⟨rfl | he, hne⟩
      · exact absurd ⟨rfl, rfl⟩ hne
      · exact he
  · simp [hne]

theorem nodup_pop (h : ∀ y, (stack y).Nodup) (hx : stack x = f :: r) (y : θ) :
    (Function.update stack x r y).Nodup := by
  rcases eq_or_ne y x with rfl | hne
  · have := h y
    rw [hx] at this
    rw [Function.update_self]
    exact (List.nodup_cons.mp this).2
  · rw [Function.update_of_ne hne]
    exact h y

theorem isChain_pop (h : ∀ y, (stack y).IsChain R) (hx : stack x = f :: r) (y : θ) :
    (Function.update stack x r y).IsChain R := by
  rcases eq_or_ne y x with rfl | hne
  · have := h y
    rw [hx] at this
    rw [Function.update_self]
    exact this.tail
  · rw [Function.update_of_ne hne]
    exact h y

/-- A part of a stack after a push or a pop, where it was before. -/
theorem split_pop {l₁ l₂ : List α} (hx : stack x = f :: r)
    (hl : Function.update stack x r y = l₁ ++ e :: l₂) : ∃ l₀, stack y = l₀ ++ e :: l₂ := by
  rcases eq_or_ne y x with rfl | hne
  · rw [Function.update_self] at hl
    exact ⟨f :: l₁, by rw [hx, hl, List.cons_append]⟩
  · rw [Function.update_of_ne hne] at hl
    exact ⟨l₁, hl⟩

theorem split_push {l₁ l₂ : List α} (hl : Function.update stack x (f :: stack x) y = l₁ ++ e :: l₂) :
    (y = x ∧ e = f ∧ l₂ = stack x) ∨ ∃ l₀, stack y = l₀ ++ e :: l₂ := by
  rcases eq_or_ne y x with rfl | hne
  · rw [Function.update_self] at hl
    cases l₁ with
    | nil =>
      cases hl
      exact .inl ⟨rfl, rfl, rfl⟩
    | cons e' l₁ =>
      rw [List.cons_append, List.cons.injEq] at hl
      exact .inr ⟨l₁, hl.2⟩
  · rw [Function.update_of_ne hne] at hl
    exact .inr ⟨l₁, hl⟩

end Stack

/-- What may lie on what, if no edge between the entries of the stack is lost. -/
theorem Ok.shape_mono {g' : Net θ τ} (h : Ok g due)
    (hcalls : ∀ u w y, g.status w = .served y → TransGen g.Calls u w → TransGen g'.Calls u w) (x : θ) :
    (g.stack x).IsChain g'.Above := by
  refine (h.shape x).imp_of_mem_imp fun e f he _ hef => ?_
  match e, f with
  | .call _, .serve _ => trivial
  | .serve w, .call u => exact hcalls u w x (h.serve_iff.mp he) hef
  | .call _, .call _ => exact hef.elim
  | .serve _, .serve _ => exact hef.elim

/-! ## Waiting for another thread -/

/-- `y` waits for a call that has come to `x`, which serves it or a call that descends from it. -/
def Net.Waits (g : Net θ τ) (y x : θ) : Prop :=
  ∃ u r p l, g.stack y = .call u :: r ∧ g.stack x = .serve p :: l ∧ ReflTransGen g.Calls u p

theorem Net.Waits.head (hw : g.Waits y x) : ∀ c l, g.stack x ≠ .call c :: l := by
  obtain ⟨u, r, p, l, -, hx, -⟩ := hw
  intro c l' h
  rw [hx] at h
  cases h

/-- Neither the stacks of the two nor what descends from a call change. -/
theorem Net.Waits.mono {g' : Net θ τ} (hw : g.Waits y x) (hy : g'.stack y = g.stack y)
    (hx : g'.stack x = g.stack x)
    (hc : ∀ u p l, g.stack x = .serve p :: l → TransGen g.Calls u p → TransGen g'.Calls u p) :
    g'.Waits y x := by
  obtain ⟨u, r, p, l, hu, hp, hup⟩ := hw
  refine ⟨u, r, p, l, hy.trans hu, hx.trans hp, ?_⟩
  rcases reflTransGen_iff_eq_or_transGen.mp hup with rfl | hup
  · exact .refl
  · exact (hc u p l hp hup).to_reflTransGen

/-- The call on top of a waiting thread's stack has a child, or is served where it has come to. Neither
is true of one that is held. -/
theorem Ok.waits_not_held (h : Ok g due) (hw : g.Waits y x) (hy : g.stack y = .call t :: l) :
    g.status t ≠ .held := by
  intro ht
  obtain ⟨u, r, p, l', hu, hp, hup⟩ := hw
  rw [hy] at hu
  cases hu
  rcases reflTransGen_iff_eq_or_transGen.mp hup with rfl | hup
  · have := h.serve_iff.mp (show .serve p ∈ g.stack x by rw [hp]; simp)
    rw [ht] at this
    cases this
  · exact h.not_transGen ht hup

/-- Nothing comes to a thread that waits for one that has not called. -/
theorem Ok.waits_not_due (h : Ok g due) (hw : g.Waits y x) : ¬ due y t := by
  intro ht
  obtain ⟨u, r, p, l, hu, hp, hup⟩ := hw
  rcases h.due ht with ⟨hs, -⟩ | ⟨v, l', hv, hvt⟩
  · rw [hu] at hs
    cases hs
  · rw [hu] at hv
    cases hv
    have hserved := h.serve_iff.mp (show .serve p ∈ g.stack x by rw [hp]; simp)
    have hheld := h.due_held ht
    rcases reflTransGen_iff_eq_or_transGen.mp hup with rfl | hup
    · obtain ⟨c, hc, -⟩ := TransGen.head'_iff.mp hvt
      exact h.top_serve hp hc
    · have := h.descendant_unique hvt hup (fun _ => h.parent_ne_held hheld) fun _ => h.top_serve hp
      rw [← this, hheld] at hserved
      cases hserved

/-- Every sequence of calls, each a child of the one before, ends. -/
def Net.Ends (g : Net θ τ) : Prop := WellFounded fun c p => g.Calls p c

/-- Fewer calls have a parent. -/
theorem Net.Ends.mono {g' : Net θ τ} (h : g.Ends) (hp : ∀ p c, g'.Calls p c → g.Calls p c) : g'.Ends :=
  Subrelation.wf (fun {c p} => hp p c) h

/-- Where finitely many entries have called, every sequence of callers ends too. -/
theorem Net.Ends.callers (h : g.Ends) (hf : Set.Finite {p | ∃ c, g.Calls p c}) : WellFounded g.Calls := by
  have hs : IsStrictOrder τ (TransGen g.Calls) :=
    { irrefl := fun p hp => h.transGen.asymmetric p p (transGen_swap.mpr hp) (transGen_swap.mpr hp)
      trans := fun _ _ _ => TransGen.trans }
  have hw := hf.wellFoundedOn (r := TransGen g.Calls)
  have hacc (p : {p | ∃ c, g.Calls p c}) : Acc g.Calls p.1 := by
    induction p using WellFounded.induction hw with
    | h p ih => exact ⟨_, fun q hq => ih ⟨q, p.1, hq⟩ (.single hq)⟩
  exact ⟨fun c => ⟨c, fun p hp => hacc ⟨p, c, hp⟩⟩⟩

section Steps

variable [DecidableEq τ]

namespace Net

variable [DecidableEq θ] (g : Net θ τ)

/-- A new call, or anything else that is passed between threads. -/
@[simps -fullyApplied] def new (t : τ) : Net θ τ := { g with status := Function.update g.status t .held }

/-- `x` calls. -/
@[simps -fullyApplied] def call (x : θ) (t : τ) : Net θ τ :=
  { g with
    stack := Function.update g.stack x (.call t :: g.stack x)
    caller := Function.update g.caller t (some x)
    parent := Function.update g.parent t ((g.stack x).head?.map Entry.id) }

/-- `x` starts to serve `t`. -/
@[simps -fullyApplied] def serve (x : θ) (t : τ) : Net θ τ :=
  { g with
    stack := Function.update g.stack x (.serve t :: g.stack x)
    status := Function.update g.status t (.served x) }

/-- `x` has served `t`, which is on top of its stack. -/
@[simps -fullyApplied] def reply (x : θ) (t : τ) : Net θ τ :=
  { g with
    stack := Function.update g.stack x (g.stack x).tail
    status := Function.update g.status t .held }

/-- The call `t` of `y`, on top of its stack, is over, and `y` goes on. -/
@[simps -fullyApplied] def resume (y : θ) (t : τ) : Net θ τ :=
  { g with
    stack := Function.update g.stack y (g.stack y).tail
    caller := Function.update g.caller t none
    parent := Function.update g.parent t none }

@[simps -fullyApplied] def finish (t : τ) : Net θ τ := { g with status := Function.update g.status t .absent }

/-- The end of `t`, whose caller has left, is passed on to the call `p` that its caller served. -/
@[simps -fullyApplied] def pass (t p : τ) : Net θ τ :=
  { g with
    parent := Function.update g.parent t none
    status := Function.update g.status p .held }

/-- `x` leaves. The call on top of its stack, if `x` serves it, is held; the others that it serves
wait for the calls that it has made. -/
@[simps] def exit (x : θ) : Net θ τ where
  stack := Function.update g.stack x []
  caller t := if g.caller t = some x then none else g.caller t
  parent := g.parent
  status t := if g.status t = .served x then
      if (g.stack x).head? = some (.serve t) then .held else .left
    else g.status t

end Net

theorem Ok.new (h : Ok g due) (ht : g.status t = .absent) : Ok (g.new t) due := by
  have hkeep : ∀ u s, s ≠ .held → s ≠ .absent →
      (Function.update g.status t .held u = s ↔ g.status u = s) := by
    intro u s hs hs'
    rcases eq_or_ne u t with rfl | hne
    · rw [Function.update_self, ht]
      exact ⟨fun he => absurd he.symm hs, fun he => absurd he.symm hs'⟩
    · rw [Function.update_of_ne hne]
  refine h.setStatus (fun u x => hkeep u _ nofun nofun) (fun u => hkeep u _ nofun nofun)
    (fun u hu => ?_) (fun x u hu => ?_) fun _ _ => id
  · rcases eq_or_ne u t with rfl | hne
    · exact h.absent ht
    · rw [Function.update_of_ne hne] at hu
      exact h.absent hu
  · rcases eq_or_ne u t with rfl | hne
    · exact Function.update_self ..
    · rw [Function.update_of_ne hne]
      exact h.due_held hu

theorem Ok.finish (h : Ok g due) (ht : g.status t = .held) (hc : g.caller t = none)
    (hp : g.parent t = none) (hd : ∀ x, ¬ due x t) : Ok (g.finish t) due := by
  have hkeep : ∀ u s, s ≠ .held → s ≠ .absent →
      (Function.update g.status t .absent u = s ↔ g.status u = s) := by
    intro u s hs hs'
    rcases eq_or_ne u t with rfl | hne
    · rw [Function.update_self, ht]
      exact ⟨fun he => absurd he.symm hs', fun he => absurd he.symm hs⟩
    · rw [Function.update_of_ne hne]
  refine h.setStatus (fun u x => hkeep u _ nofun nofun) (fun u => hkeep u _ nofun nofun)
    (fun u hu => ?_) (fun x u hu => ?_) fun _ _ => id
  · rcases eq_or_ne u t with rfl | hne
    · exact ⟨hc, hp⟩
    · rw [Function.update_of_ne hne] at hu
      exact h.absent hu
  · rcases eq_or_ne u t with rfl | hne
    · exact absurd hu (hd x)
    · rw [Function.update_of_ne hne]
      exact h.due_held hu

/-- The end of `t` goes to `p`, since the caller of `t` has left. -/
theorem Ok.pass (h : Ok g due) (ht : g.status t = .held) (hc : g.caller t = none)
    (hp : g.Calls p t) (hd : ∀ y, ¬ due y t) : Ok (g.pass t p) due := by
  have hleft : g.status p = .left := by
    rcases h.parent hp with ⟨y, hy, -⟩ | ⟨-, hs⟩
    · rw [hc] at hy
      cases hy
    · exact hs
  have hold : ∀ {q c}, c ≠ t → ((g.pass t p).Calls q c ↔ g.Calls q c) := by
    intro q c hne
    rw [Net.Calls, Net.pass_parent, Function.update_of_ne hne, Net.Calls]
  have hback : ∀ {q c}, (g.pass t p).Calls q c → c ≠ t ∧ g.Calls q c := by
    intro q c hqc
    have hne : c ≠ t := by
      rintro rfl
      rw [Net.Calls, Net.pass_parent, Function.update_self] at hqc
      cases hqc
    exact ⟨hne, (hold hne).mp hqc⟩
  have hstatus : ∀ {u s}, u ≠ p → ((g.pass t p).status u = s ↔ g.status u = s) := by
    intro u s hne
    rw [Net.pass_status, Function.update_of_ne hne]
  have hnew : (g.pass t p).status p = .held := Function.update_self ..
  have hcalls : ∀ u w, w ≠ t → TransGen g.Calls u w → TransGen (g.pass t p).Calls u w :=
    fun u w hw => transGen_of_ne (fun _ => h.parent_ne_held ht) (fun _ _ hpc hne => (hold hne).mpr hpc) hw
  constructor
  · intro y u
    rw [Net.pass_stack, h.serve_iff]
    rcases eq_or_ne u p with rfl | hne
    · rw [hnew, hleft]
      exact ⟨nofun, nofun⟩
    · exact (hstatus hne).symm
  · exact h.call_iff
  · exact h.nodup
  · refine h.shape_mono fun u w y hw => hcalls u w ?_
    rintro rfl
    rw [ht] at hw
    cases hw
  · intro y l₁ c l₂ hl
    have hne : c ≠ t := by
      rintro rfl
      have := h.call_iff.mp (show .call c ∈ g.stack y by rw [← Net.pass_stack g c p, hl]; simp)
      rw [hc] at this
      cases this
    rw [Net.pass_parent, Function.update_of_ne hne]
    exact h.callParent hl
  · exact fun hpc hpd => h.unique (hback hpc).2 (hback hpd).2
  · intro q c hqc
    obtain ⟨hne, hqc'⟩ := hback hqc
    have hqp : q ≠ p := fun he => hne (h.unique (he ▸ hqc') hp)
    refine (h.parent hqc').imp ?_ ?_
    · rintro ⟨y, hy, hs⟩
      exact ⟨y, hy, (hstatus hqp).mpr hs⟩
    · rintro ⟨hn, hs⟩
      exact ⟨hn, (hstatus hqp).mpr hs⟩
  · intro q hq
    have hqp : q ≠ p := by
      rintro rfl
      rw [hnew] at hq
      cases hq
    obtain ⟨c, hqc⟩ := h.left ((hstatus hqp).mp hq)
    refine ⟨c, (hold ?_).mpr hqc⟩
    rintro rfl
    exact hqp (Option.some.inj (hqc.symm.trans hp))
  · intro u hu
    have hne : u ≠ p := by
      rintro rfl
      rw [hnew] at hu
      cases hu
    have hab := h.absent ((hstatus hne).mp hu)
    refine ⟨hab.1, ?_⟩
    rw [Net.pass_parent]
    rcases eq_or_ne u t with rfl | hut
    · exact Function.update_self ..
    · rw [Function.update_of_ne hut]
      exact hab.2
  · intro y u hu
    have hne : u ≠ p := by
      rintro rfl
      have := h.due_held hu
      rw [hleft] at this
      cases this
    exact (hstatus hne).mpr (h.due_held hu)
  · intro y u hu
    have hne : u ≠ t := by
      rintro rfl
      exact hd y hu
    refine (h.due hu).imp_right ?_
    rintro ⟨v, l', hs, hv⟩
    exact ⟨v, l', hs, hcalls v u hne hv⟩

/-- The end of `t`, which is held, is passed on. -/
theorem Ok.waits_pass (h : Ok g due) (hw : g.Waits y x) (ht : g.status t = .held) :
    (g.pass t p).Waits y x := by
  refine hw.mono rfl rfl fun u q l' hq =>
    transGen_of_ne (fun _ => h.parent_ne_held ht) (fun a b hab hb => ?_) ?_
  · rw [Net.Calls, Net.pass_parent, Function.update_of_ne hb]
    exact hab
  · rintro rfl
    have := h.serve_iff.mp (show .serve q ∈ g.stack x by rw [hq]; simp)
    rw [ht] at this
    cases this

variable [DecidableEq θ]

/-- `x` calls: it waits for nothing, and nothing is on its way to it. -/
theorem Ok.call (h : Ok g due) (ht : g.status t = .held) (hc : g.caller t = none)
    (hp : g.parent t = none) (hx : ∀ c l, g.stack x ≠ .call c :: l) (hd : ∀ u, ¬ due x u) :
    Ok (g.call x t) due := by
  have hold : ∀ {p c}, c ≠ t → ((g.call x t).Calls p c ↔ g.Calls p c) := by
    intro p c hne
    rw [Net.Calls, Net.call_parent, Function.update_of_ne hne, Net.Calls]
  have hmono : ∀ a b, g.Calls a b → (g.call x t).Calls a b := by
    intro a b hab
    refine (hold ?_).mpr hab
    rintro rfl
    rw [Net.Calls, hp] at hab
    cases hab
  have hnot : ∀ y, .call t ∉ g.stack y := fun y hm => by
    rw [h.call_iff, hc] at hm
    cases hm
  have htop : ∀ e ∈ (g.stack x).head?, ∃ p l, g.stack x = .serve p :: l ∧ e = .serve p := by
    intro e he
    cases hs : g.stack x with
    | nil => rw [hs] at he; cases he
    | cons f l =>
      rw [hs] at he
      cases he
      cases e with
      | call c => exact absurd hs (hx c l)
      | serve q => exact ⟨q, l, rfl, rfl⟩
  have hnew : ∀ {p}, (g.call x t).Calls p t → ∃ l, g.stack x = .serve p :: l := by
    intro p hpt
    rw [Net.Calls, Net.call_parent, Function.update_self] at hpt
    obtain ⟨e, he, rfl⟩ := Option.map_eq_some_iff.mp hpt
    obtain ⟨q, l, hl, rfl⟩ := htop e he
    exact ⟨l, hl⟩
  constructor
  · intro y u
    rw [Net.call_stack, mem_push, Net.call_status]
    exact (or_iff_right fun he => by cases he.2).trans h.serve_iff
  · intro y u
    rw [Net.call_stack, mem_push, Net.call_caller]
    rcases eq_or_ne u t with rfl | hut
    · rw [Function.update_self, or_iff_left (hnot y)]
      exact ⟨fun he => by rw [he.1], fun he => ⟨(Option.some.inj he).symm, rfl⟩⟩
    · rw [Function.update_of_ne hut]
      exact (or_iff_right fun he => hut (by cases he.2; rfl)).trans h.call_iff
  · exact nodup_push h.nodup (hnot x)
  · refine isChain_push (h.shape_mono fun u w _ _ => TransGen.mono hmono u w) fun e he => ?_
    obtain ⟨q, l, -, rfl⟩ := htop e he
    trivial
  · intro y l₁ c l₂ hl
    rw [Net.call_parent]
    rcases split_push hl with ⟨rfl, he, rfl⟩ | ⟨l₀, hl₀⟩
    · cases he
      exact Function.update_self ..
    · rw [Function.update_of_ne]
      · exact h.callParent hl₀
      · rintro rfl
        exact hnot y (by rw [hl₀]; simp)
  · intro p c d hpc hpd
    by_cases hct : c = t <;> by_cases hdt : d = t
    · rw [hct, hdt]
    · obtain ⟨l, hl⟩ := hnew (hct ▸ hpc)
      exact absurd ((hold hdt).mp hpd) (h.top_serve hl)
    · obtain ⟨l, hl⟩ := hnew (hdt ▸ hpd)
      exact absurd ((hold hct).mp hpc) (h.top_serve hl)
    · exact h.unique ((hold hct).mp hpc) ((hold hdt).mp hpd)
  · intro p c hpc
    rw [Net.call_caller, Net.call_status]
    rcases eq_or_ne c t with rfl | hct
    · obtain ⟨l, hl⟩ := hnew hpc
      rw [Function.update_self]
      exact .inl ⟨x, rfl, h.serve_iff.mp (by rw [hl]; simp)⟩
    · rw [Function.update_of_ne hct]
      exact h.parent ((hold hct).mp hpc)
  · intro p hp
    obtain ⟨c, hc⟩ := h.left hp
    exact ⟨c, hmono _ _ hc⟩
  · intro u hu
    have hne : u ≠ t := by
      rintro rfl
      rw [show g.status u = .absent from hu] at ht
      cases ht
    rw [Net.call_caller, Net.call_parent, Function.update_of_ne hne, Function.update_of_ne hne]
    exact h.absent hu
  · exact h.due_held
  · intro y u hu
    have hne : y ≠ x := by
      rintro rfl
      exact hd u hu
    rw [Due, Net.call_stack, Function.update_of_ne hne]
    refine (h.due hu).imp_right ?_
    rintro ⟨w, l, hs, hw⟩
    exact ⟨w, l, hs, TransGen.mono hmono w u hw⟩

/-- `x` starts to serve `t`: it waits for nothing, or for a call that `t` descends from. -/
theorem Ok.serve (h : Ok g due) (ht : due x t) (hd : ∀ y u, due' y u → due y u ∧ u ≠ t) :
    Ok (g.serve x t) due' := by
  have hheld := h.due_held ht
  have hnot : ∀ y, .serve t ∉ g.stack y := fun y hm => by
    rw [h.serve_iff, hheld] at hm
    cases hm
  have hstatus : ∀ {u s}, u ≠ t → ((g.serve x t).status u = s ↔ g.status u = s) := by
    intro u s hne
    rw [Net.serve_status, Function.update_of_ne hne]
  constructor
  · intro y u
    rw [Net.serve_stack, mem_push]
    rcases eq_or_ne u t with rfl | hne
    · rw [or_iff_left (hnot y), Net.serve_status, Function.update_self]
      exact ⟨fun he => by rw [he.1], fun he => ⟨by cases he; rfl, rfl⟩⟩
    · rw [hstatus hne]
      exact (or_iff_right fun he => hne (by cases he.2; rfl)).trans h.serve_iff
  · intro y u
    rw [Net.serve_stack, mem_push, Net.serve_caller]
    exact (or_iff_right fun he => by cases he.2).trans h.call_iff
  · exact nodup_push h.nodup (hnot x)
  · refine isChain_push h.shape fun e he => ?_
    rcases h.due ht with ⟨hs, -⟩ | ⟨u, l, hs, hu⟩
    · rw [hs] at he
      cases he
    · rw [hs] at he
      cases he
      exact hu
  · intro y l₁ c l₂ hl
    rcases split_push hl with ⟨-, he, -⟩ | ⟨l₀, hl₀⟩
    · cases he
    · exact h.callParent hl₀
  · exact h.unique
  · intro p c hpc
    have hne : p ≠ t := by
      rintro rfl
      exact h.parent_ne_held hheld hpc
    refine (h.parent hpc).imp ?_ ?_
    · rintro ⟨y, hy, hs⟩
      exact ⟨y, hy, (hstatus hne).mpr hs⟩
    · rintro ⟨hn, hs⟩
      exact ⟨hn, (hstatus hne).mpr hs⟩
  · intro p hp
    rcases eq_or_ne p t with rfl | hne
    · rw [Net.serve_status, Function.update_self] at hp
      cases hp
    · exact h.left ((hstatus hne).mp hp)
  · intro u hu
    rcases eq_or_ne u t with rfl | hne
    · rw [Net.serve_status, Function.update_self] at hu
      cases hu
    · exact h.absent ((hstatus hne).mp hu)
  · intro y u hu
    exact (hstatus (hd y u hu).2).mpr (h.due_held (hd y u hu).1)
  · intro y u hu
    obtain ⟨hu', hne⟩ := hd y u hu
    have hyx : y ≠ x := by
      rintro rfl
      rcases h.due ht with ⟨-, hone⟩ | ⟨v, l, hs, hv⟩
      · exact hne (hone u hu')
      · rcases h.due hu' with ⟨hs', -⟩ | ⟨v', l', hs', hv'⟩
        · rw [hs] at hs'
          cases hs'
        · rw [hs] at hs'
          cases hs'
          exact hne (h.descendant_unique hv' hv (fun _ => h.parent_ne_held (h.due_held hu'))
            fun _ => h.parent_ne_held hheld)
    rw [Due, Net.serve_stack, Function.update_of_ne hyx]
    refine (h.due hu').imp_left fun ⟨hs, hone⟩ => ⟨hs, fun w hw => hone w (hd y w hw).1⟩

/-- `x` has served `t`. -/
theorem Ok.reply (h : Ok g due) (hx : g.stack x = .serve t :: l) : Ok (g.reply x t) due := by
  have hpop : (g.reply x t).stack = Function.update g.stack x l := by rw [Net.reply_stack, hx, List.tail_cons]
  have hst : g.status t = .served x := h.serve_iff.mp (by rw [hx]; simp)
  have hstatus : ∀ {u s}, u ≠ t → ((g.reply x t).status u = s ↔ g.status u = s) := by
    intro u s hne
    rw [Net.reply_status, Function.update_of_ne hne]
  have hnew : (g.reply x t).status t = .held := Function.update_self ..
  constructor
  · intro y u
    rw [hpop, mem_pop (h.nodup x) hx, h.serve_iff]
    rcases eq_or_ne u t with rfl | hne
    · rw [hnew, hst]
      exact ⟨fun ⟨he, hn⟩ => absurd ⟨by cases he; rfl, rfl⟩ hn, nofun⟩
    · rw [hstatus hne]
      exact ⟨And.left, fun he => ⟨he, fun hn => hne (by cases hn.2; rfl)⟩⟩
  · intro y u
    rw [hpop, mem_pop (h.nodup x) hx, Net.reply_caller, h.call_iff]
    exact ⟨And.left, fun he => ⟨he, fun hn => by cases hn.2⟩⟩
  · rw [hpop]
    exact nodup_pop h.nodup hx
  · rw [hpop]
    exact isChain_pop h.shape hx
  · intro y l₁ c l₂ hl
    rw [hpop] at hl
    obtain ⟨l₀, hl₀⟩ := split_pop hx hl
    exact h.callParent hl₀
  · exact h.unique
  · intro p c hpc
    have hne : p ≠ t := by
      rintro rfl
      exact h.top_serve hx hpc
    refine (h.parent hpc).imp ?_ ?_
    · rintro ⟨y, hy, hs⟩
      exact ⟨y, hy, (hstatus hne).mpr hs⟩
    · rintro ⟨hn, hs⟩
      exact ⟨hn, (hstatus hne).mpr hs⟩
  · intro p hp
    have hne : p ≠ t := by
      rintro rfl
      rw [hnew] at hp
      cases hp
    exact h.left ((hstatus hne).mp hp)
  · intro u hu
    have hne : u ≠ t := by
      rintro rfl
      rw [hnew] at hu
      cases hu
    exact h.absent ((hstatus hne).mp hu)
  · intro y u hu
    have hne : u ≠ t := by
      rintro rfl
      have := h.due_held hu
      rw [hst] at this
      cases this
    exact (hstatus hne).mpr (h.due_held hu)
  · intro y u hu
    have hyx : y ≠ x := by
      rintro rfl
      rcases h.due hu with ⟨hs, -⟩ | ⟨v, l', hs, -⟩ <;> rw [hx] at hs <;> cases hs
    rw [Due, hpop, Function.update_of_ne hyx]
    exact h.due hu

/-- The caller of `t` goes on. -/
theorem Ok.resume (h : Ok g due) (ht : g.status t = .held) (hx : g.stack x = .call t :: l)
    (hd : ∀ y, ¬ due y t) : Ok (g.resume x t) due := by
  have hpop : (g.resume x t).stack = Function.update g.stack x l := by
    rw [Net.resume_stack, hx, List.tail_cons]
  have hc : g.caller t = some x := h.call_iff.mp (by rw [hx]; simp)
  have hold : ∀ {p c}, c ≠ t → ((g.resume x t).Calls p c ↔ g.Calls p c) := by
    intro p c hne
    rw [Net.Calls, Net.resume_parent, Function.update_of_ne hne, Net.Calls]
  have hnew : ∀ {p}, ¬ (g.resume x t).Calls p t := by
    intro p hp
    rw [Net.Calls, Net.resume_parent, Function.update_self] at hp
    cases hp
  have hback : ∀ {p c}, (g.resume x t).Calls p c → c ≠ t ∧ g.Calls p c := by
    intro p c hpc
    have hne : c ≠ t := by
      rintro rfl
      exact hnew hpc
    exact ⟨hne, (hold hne).mp hpc⟩
  have hcalls : ∀ u w, w ≠ t → TransGen g.Calls u w → TransGen (g.resume x t).Calls u w :=
    fun u w hw => transGen_of_ne (fun _ => h.parent_ne_held ht) (fun _ _ hpc hne => (hold hne).mpr hpc) hw
  constructor
  · intro y u
    rw [hpop, mem_pop (h.nodup x) hx, Net.resume_status, h.serve_iff]
    exact ⟨And.left, fun he => ⟨he, fun hn => by cases hn.2⟩⟩
  · intro y u
    rw [hpop, mem_pop (h.nodup x) hx, Net.resume_caller, h.call_iff]
    rcases eq_or_ne u t with rfl | hne
    · rw [Function.update_self, hc]
      exact ⟨fun ⟨he, hn⟩ => absurd ⟨(Option.some.inj he).symm, rfl⟩ hn, nofun⟩
    · rw [Function.update_of_ne hne]
      exact ⟨And.left, fun he => ⟨he, fun hn => hne (by cases hn.2; rfl)⟩⟩
  · rw [hpop]
    exact nodup_pop h.nodup hx
  · rw [hpop]
    refine isChain_pop (h.shape_mono fun u w y hw => hcalls u w ?_) hx
    rintro rfl
    rw [ht] at hw
    cases hw
  · intro y l₁ c l₂ hl
    have hm : .call c ∈ (g.resume x t).stack y := by rw [hl]; simp
    rw [hpop, mem_pop (h.nodup x) hx] at hm
    have hne : c ≠ t := by
      rintro rfl
      refine hm.2 ⟨?_, rfl⟩
      have := h.call_iff.mp hm.1
      rw [hc] at this
      exact (Option.some.inj this).symm
    rw [hpop] at hl
    obtain ⟨l₀, hl₀⟩ := split_pop hx hl
    rw [Net.resume_parent, Function.update_of_ne hne]
    exact h.callParent hl₀
  · exact fun hpc hpd => h.unique (hback hpc).2 (hback hpd).2
  · intro p c hpc
    obtain ⟨hne, hpc⟩ := hback hpc
    rw [Net.resume_caller, Function.update_of_ne hne]
    exact h.parent hpc
  · intro p hp
    obtain ⟨c, hpc⟩ := h.left hp
    refine ⟨c, (hold ?_).mpr hpc⟩
    -- the parent of `t` is served by `x`
    rintro rfl
    rcases h.parent hpc with ⟨y, -, hs⟩ | ⟨hn, -⟩
    · rw [show g.status p = .left from hp] at hs
      cases hs
    · rw [hc] at hn
      cases hn
  · intro u hu
    rw [Net.resume_caller, Net.resume_parent]
    rcases eq_or_ne u t with rfl | hne
    · exact ⟨Function.update_self .., Function.update_self ..⟩
    · rw [Function.update_of_ne hne, Function.update_of_ne hne]
      exact h.absent hu
  · exact h.due_held
  · intro y u hu
    have hne : u ≠ t := by
      rintro rfl
      exact hd y hu
    have hyx : y ≠ x := by
      rintro rfl
      rcases h.due hu with ⟨hs, -⟩ | ⟨v, l', hs, hv⟩ <;> rw [hx] at hs <;> cases hs
      exact h.not_transGen ht hv
    rw [Due, hpop, Function.update_of_ne hyx]
    refine (h.due hu).imp_right ?_
    rintro ⟨v, l', hs, hv⟩
    exact ⟨v, l', hs, hcalls v u hne hv⟩

/-- `x` leaves, and nothing comes to it any more. -/
theorem Ok.exit (h : Ok g due) (x : θ) (hd : ∀ y u, due' y u → due y u ∧ y ≠ x) :
    Ok (g.exit x) due' := by
  have hstatus : ∀ {u s}, g.status u = s → s ≠ .served x → (g.exit x).status u = s := by
    intro u s hu hs
    rw [Net.exit_status, if_neg (by rw [hu]; exact hs), hu]
  have hserved : ∀ {u}, g.status u = .served x →
      (g.exit x).status u = if (g.stack x).head? = some (.serve u) then .held else .left := by
    intro u hu
    rw [Net.exit_status, if_pos hu]
  have hback : ∀ {u s}, (g.exit x).status u = s → g.status u = s ∨
      (g.status u = .served x ∧ s = if (g.stack x).head? = some (.serve u) then .held else .left) := by
    intro u s hu
    by_cases hx : g.status u = .served x
    · exact .inr ⟨hx, hu.symm.trans (hserved hx)⟩
    · exact .inl (by rwa [Net.exit_status, if_neg hx] at hu)
  have hmem : ∀ {y e}, e ∈ (g.exit x).stack y ↔ e ∈ g.stack y ∧ y ≠ x := by
    intro y e
    rw [Net.exit_stack]
    rcases eq_or_ne y x with rfl | hne
    · simp
    · simp [hne]
  have hstack : ∀ {y}, y ≠ x → (g.exit x).stack y = g.stack y := fun hne => Function.update_of_ne hne ..
  have hnil : (g.exit x).stack x = [] := Function.update_self ..
  constructor
  · intro y u
    rw [hmem, h.serve_iff]
    constructor
    · rintro ⟨hu, hne⟩
      exact hstatus hu fun he => hne (by cases he; rfl)
    · intro hu
      rcases hback hu with hu' | ⟨-, hs⟩
      · refine ⟨hu', ?_⟩
        rintro rfl
        rw [hserved hu'] at hu
        split at hu <;> cases hu
      · split at hs <;> cases hs
  · intro y u
    rw [hmem, h.call_iff, Net.exit_caller]
    constructor
    · rintro ⟨hu, hne⟩
      rw [if_neg, hu]
      rw [hu]
      exact fun he => hne (Option.some.inj he)
    · intro hu
      split at hu
      · cases hu
      · rename_i hne
        exact ⟨hu, fun he => hne (he ▸ hu)⟩
  · intro y
    rcases eq_or_ne y x with rfl | hne
    · rw [hnil]
      exact List.nodup_nil
    · rw [hstack hne]
      exact h.nodup y
  · intro y
    rcases eq_or_ne y x with rfl | hne
    · rw [hnil]
      exact List.isChain_nil
    · rw [hstack hne]
      exact h.shape y
  · intro y l₁ c l₂ hl
    rcases eq_or_ne y x with rfl | hne
    · rw [hnil] at hl
      simp at hl
    · rw [hstack hne] at hl
      exact h.callParent hl
  · exact h.unique
  · intro p c hpc
    rw [Net.exit_caller]
    rcases h.parent hpc with ⟨y, hy, hs⟩ | ⟨hn, hs⟩
    · rcases eq_or_ne y x with rfl | hne
      · refine .inr ⟨if_pos hy, ?_⟩
        rw [hserved hs, if_neg]
        -- the top of the stack has no child
        intro htop
        obtain ⟨l, hl⟩ : ∃ l, g.stack y = .serve p :: l := by
          cases hst : g.stack y with
          | nil => rw [hst] at htop; cases htop
          | cons e l => rw [hst] at htop; cases htop; exact ⟨l, rfl⟩
        exact h.top_serve hl hpc
      · refine .inl ⟨y, ?_, hstatus hs fun he => hne (by cases he; rfl)⟩
        rw [if_neg, hy]
        rw [hy]
        exact fun he => hne (Option.some.inj he)
    · refine .inr ⟨?_, hstatus hs nofun⟩
      rw [if_neg, hn]
      rw [hn]
      exact nofun
  · intro p hp
    rcases hback hp with hp' | ⟨hp', hs⟩
    · exact h.left hp'
    · split at hs
      · cases hs
      rename_i hnot
      rcases exists_above (h.serve_iff.mpr hp') with ⟨r, hr⟩ | ⟨l₁, f, l₂, hl⟩
      · exact absurd (by rw [hr]; rfl) hnot
      · have ha := h.above hl
        cases f with
        | call c => exact ⟨c, h.callParent hl⟩
        | serve q => exact ha.elim
  · intro u hu
    rcases hback hu with hu' | ⟨-, hs⟩
    · obtain ⟨hc, hp⟩ := h.absent hu'
      refine ⟨?_, hp⟩
      rw [Net.exit_caller, if_neg, hc]
      rw [hc]
      exact nofun
    · split at hs <;> cases hs
  · intro y u hu
    exact hstatus (h.due_held (hd y u hu).1) nofun
  · intro y u hu
    obtain ⟨hu', hne⟩ := hd y u hu
    rw [Due, hstack hne]
    exact (h.due hu').imp_left fun ⟨hs, hone⟩ => ⟨hs, fun w hw => hone w (hd y w hw).1⟩

/-! ### Waiting for another thread -/

/-- `z` calls. -/
theorem Net.Waits.call (hw : g.Waits y x) (hp : g.parent t = none) (hz : ∀ c l, g.stack z ≠ .call c :: l)
    (hzx : z ≠ x) : (g.call z t).Waits y x := by
  have hzy : y ≠ z := by
    rintro rfl
    obtain ⟨u, r, -, -, hu, -⟩ := hw
    exact hz u r hu
  refine hw.mono (Function.update_of_ne hzy ..) (Function.update_of_ne hzx.symm ..)
    fun u p _ _ => TransGen.mono (fun a b hab => ?_) u p
  rw [Net.Calls, Net.call_parent, Function.update_of_ne, ← Net.Calls]
  · exact hab
  · rintro rfl
    rw [Net.Calls, hp] at hab
    cases hab

/-- The caller of `t`, which is held, goes on. -/
theorem Ok.waits_resume (h : Ok g due) (hw : g.Waits y x) (ht : g.status t = .held)
    (hz : g.stack z = .call t :: l) : (g.resume z t).Waits y x := by
  have hne : ∀ p l', g.stack x = .serve p :: l' → p ≠ t := by
    rintro p l' hp rfl
    have := h.serve_iff.mp (show .serve p ∈ g.stack x by rw [hp]; simp)
    rw [ht] at this
    cases this
  refine hw.mono (Function.update_of_ne ?_ ..) (Function.update_of_ne ?_ ..) fun u p l' hp =>
    transGen_of_ne (fun _ => h.parent_ne_held ht) (fun a b hab hb => ?_) (hne p l' hp)
  · rintro rfl
    exact h.waits_not_held hw hz ht
  · rintro rfl
    exact hw.head _ _ hz
  · rw [Net.Calls, Net.resume_parent, Function.update_of_ne hb]
    exact hab

/-- A call of `x` comes to `y`, which waits for `x`. -/
theorem Net.Waits.comes (hw : g.Waits y x) (hyx : y ≠ x) (hp : g.parent t = none) :
    ∃ u l, (g.call x t).stack y = .call u :: l ∧ TransGen (g.call x t).Calls u t := by
  obtain ⟨u, r, p, l, hu, hx, hup⟩ := hw
  refine ⟨u, r, (Function.update_of_ne hyx ..).trans hu, ?_⟩
  have hpt : (g.call x t).Calls p t := by
    rw [Net.Calls, Net.call_parent, Function.update_self, hx]
    rfl
  refine TransGen.tail' (ReflTransGen.mono (fun a b hab => ?_) u p hup) hpt
  rw [Net.Calls, Net.call_parent, Function.update_of_ne, ← Net.Calls]
  · exact hab
  · rintro rfl
    rw [Net.Calls, hp] at hab
    cases hab

/-- A call without a child gets a parent. -/
theorem Net.Ends.call (h : g.Ends) (hp : ∀ c, ¬ g.Calls t c)
    (ht : ∀ l, g.stack x ≠ .serve t :: l ∧ g.stack x ≠ .call t :: l) : (g.call x t).Ends := by
  have hleaf : Acc (fun c p => (g.call x t).Calls p c) t := by
    refine ⟨t, fun c hc => ?_⟩
    rw [Net.Calls, Net.call_parent] at hc
    rcases eq_or_ne c t with rfl | hne
    · rw [Function.update_self] at hc
      cases hs : g.stack x with
      | nil => rw [hs] at hc; cases hc
      | cons e l =>
        rw [hs] at hc
        cases e with
        | call d => cases hc; exact absurd hs (ht l).2
        | serve d => cases hc; exact absurd hs (ht l).1
    · rw [Function.update_of_ne hne] at hc
      exact absurd hc (hp c)
  refine ⟨fun p => h.induction p fun p ih => ⟨p, fun c hc => ?_⟩⟩
  rcases eq_or_ne c t with rfl | hne
  · exact hleaf
  · refine ih c ?_
    rwa [Net.Calls, Net.call_parent, Function.update_of_ne hne] at hc

end Steps

end Redroid.CallChain
