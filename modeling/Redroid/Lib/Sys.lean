import Mathlib.Data.Option.Basic

/-!
# Labelled systems, their runs and invariants

A system has states, initial states and labelled atomic steps. A run starts in an initial state
and takes one step after the other, in any order the steps allow.

* `Sys.ReachIf C`: the states that a run reaches whose steps all meet `C`, a condition on the
  state before the step and its label. `Sys.Reach`: the states that any run reaches.
* `Sys.ofExec`: the system of a step function; `execIf` runs it on a list of labels.
* `Sys.Run past`: the same, with the states and steps of the past.
* `ReachIf.inv`: a property that holds initially and that every step meeting `C` keeps, holds in
  every state of `ReachIf C`.
-/

namespace Redroid

/-- A guard that is passed. -/
theorem guard_bind {α : Type} {p : Prop} [Decidable p] {f : Unit → Option α} {a : α}
    (h : (guard p >>= f) = some a) : p ∧ f () = some a := by
  by_cases hp : p
  · rw [guard, if_pos hp] at h
    exact ⟨hp, h⟩
  · rw [guard, if_neg hp] at h
    cases h

/-- A labelled system: `step s a s'` is the atomic step `a` from `s` to `s'`. -/
structure Sys (σ α : Type) where
  init : σ → Prop
  step : σ → α → σ → Prop

namespace Sys

variable {σ α : Type} {S : Sys σ α} {C D : σ → α → Prop} {s s' : σ} {a : α}

/-- The states that a run of `S` reaches whose steps all meet `C`. -/
inductive ReachIf (S : Sys σ α) (C : σ → α → Prop) : σ → Prop
  | init {s : σ} : S.init s → ReachIf S C s
  | step {s s' : σ} {a : α} : ReachIf S C s → C s a → S.step s a s' → ReachIf S C s'

/-- The states that a run of `S` reaches. -/
def Reach (S : Sys σ α) : σ → Prop := S.ReachIf fun _ _ => True

/-- The invariant rule. -/
theorem ReachIf.inv {I : σ → Prop} (h0 : ∀ s, S.init s → I s)
    (hs : ∀ s a s', I s → C s a → S.step s a s' → I s') (h : S.ReachIf C s) : I s := by
  induction h with
  | init hi => exact h0 _ hi
  | step _ hc hst ih => exact hs _ _ _ ih hc hst

/-- A weaker condition on the steps has more runs. -/
theorem ReachIf.mono (hCD : ∀ s a, C s a → D s a) (h : S.ReachIf C s) : S.ReachIf D s := by
  induction h with
  | init hi => exact .init hi
  | step _ hc hst ih => exact .step ih (hCD _ _ hc) hst

theorem ReachIf.reach (h : S.ReachIf C s) : S.Reach s := h.mono fun _ _ _ => trivial

/-- The invariant rule for all runs. -/
theorem Reach.inv {I : σ → Prop} (h0 : ∀ s, S.init s → I s)
    (hs : ∀ s a s', I s → S.step s a s' → I s') (h : S.Reach s) : I s :=
  ReachIf.inv h0 (fun s a s' hi _ hst => hs s a s' hi hst) h

/-- A run of `S` to a state, with its past: the states before its steps, and the steps, the last one
first. -/
inductive Run (S : Sys σ α) : List (σ × α) → σ → Prop
  | init {s : σ} : S.init s → Run S [] s
  | step {past : List (σ × α)} {s s' : σ} {a : α} : Run S past s → S.step s a s' →
      Run S ((s, a) :: past) s'

theorem Run.reach {past : List (σ × α)} (h : S.Run past s) : S.Reach s := by
  induction h with
  | init hi => exact .init hi
  | step _ hst ih => exact .step ih trivial hst

/-- A state that is reached has a past. -/
theorem ReachIf.run (h : S.ReachIf C s) : ∃ past, S.Run past s ∧ ∀ x ∈ past, C x.1 x.2 := by
  induction h with
  | init hi => exact ⟨[], .init hi, nofun⟩
  | step _ hc hst ih =>
    obtain ⟨past, hrun, hall⟩ := ih
    exact ⟨_, .step hrun hst, fun x hx => (List.mem_cons.mp hx).elim (fun he => he ▸ hc) (hall x)⟩

/-- The system whose step `a` from `s` is `exec s a`, if it is possible. -/
def ofExec (init : σ → Prop) (exec : σ → α → Option σ) : Sys σ α where
  init := init
  step s a s' := exec s a = some s'

/-- The state after the steps `as`, if each of them is possible and meets `C`. -/
def execIf (exec : σ → α → Option σ) (C : σ → α → Prop) [∀ s a, Decidable (C s a)] :
    σ → List α → Option σ
  | s, [] => some s
  | s, a :: as => if C s a then (exec s a).bind (execIf exec C · as) else none

theorem ReachIf.execIf {init : σ → Prop} {exec : σ → α → Option σ} [∀ s a, Decidable (C s a)]
    {as : List α} (h : (ofExec init exec).ReachIf C s) (hr : Sys.execIf exec C s as = some s') :
    (ofExec init exec).ReachIf C s' := by
  induction as generalizing s with
  | nil => cases hr; exact h
  | cons a as ih =>
    simp only [Sys.execIf] at hr
    split at hr
    · rename_i hc
      obtain ⟨s₁, hs₁, hr⟩ := Option.bind_eq_some_iff.mp hr
      exact ih (.step h hc hs₁) hr
    · cases hr

theorem Reach.next (h : S.Reach s) (hst : S.step s a s') : S.Reach s' := .step h trivial hst

end Sys

end Redroid
