import Redroid.Binder.RefShape

/-!
# Who holds the counters of a node

Each counter of a node is at least what the operations in progress, the transaction buffers and the
owner are to give back.

* `RefState.acting`, `RefState.holding`: sums over the acts of all tasks, and over all buffers.
* `Builds`: a buffer that is built is so by one task. `Tmp`: the temporary references.
-/

namespace Redroid.Binder.Refs

open RefState

/-- The sum over all acts of all tasks. -/
def RefState.acting (s : RefState) (f : Act → Nat) : Nat :=
  (s.tasks.map fun t => (t.acts.map f).sum).sum

/-- The sum over all buffers. -/
def RefState.holding (s : RefState) (f : Buffer → Nat) : Nat := (s.bufs.map f).sum

variable {L : Layout} {s s' s₁ : RefState} {n : NodeId} {N : Node} {p : ProcId} {b : BufId}
  {B B' : Buffer} {x : ThreadId} {r : RefId} {i : Nat} {a : Actor} {act : Act} {rest acts : List Act}
  {op : RefOp} {o : FlatObject} {strong : Bool} {list : Option ThreadId} {target : Option NodeId}

theorem acting_set {f : Act → Nat} (ht : s.tasks[i]? = some ⟨a, act :: rest⟩)
    (hs : s'.tasks = s.tasks.set i ⟨a, acts⟩) :
    s'.acting f + (f act + (rest.map f).sum) = s.acting f + (acts.map f).sum := by
  have := sum_map_set (f := fun t : Task => (t.acts.map f).sum) ⟨a, acts⟩ ht
  simpa [RefState.acting, hs] using this

theorem acting_append {f : Act → Nat} (hs : s'.tasks = s.tasks ++ [⟨a, acts⟩]) :
    s'.acting f = s.acting f + (acts.map f).sum := by
  simp [RefState.acting, hs]

theorem holding_set {f : Buffer → Nat} (hb : s.bufs[b]? = some B) (hs : s'.bufs = s.bufs.set b B') :
    s'.holding f + f B = s.holding f + f B' := by
  rw [RefState.holding, hs]
  exact sum_map_set B' hb

theorem holding_append {f : Buffer → Nat} (hs : s'.bufs = s.bufs ++ [B]) :
    s'.holding f = s.holding f + f B := by
  simp [RefState.holding, hs]

theorem le_acting {f : Act → Nat} (ht : s.tasks[i]? = some ⟨a, acts⟩) (hact : act ∈ acts) :
    f act ≤ s.acting f :=
  (le_sum_map hact).trans
    (le_sum_map (f := fun t : Task => (t.acts.map f).sum) (List.mem_of_getElem? ht))

theorem le_holding {f : Buffer → Nat} (hb : s.bufs[b]? = some B) : f B ≤ s.holding f :=
  le_sum_map (List.mem_of_getElem? hb)

/-! ## The buffers that are built -/

/-- The act is about a buffer. -/
def Act.buf : Act → Option BufId
  | .build _ b _ => some b
  | .freeBuf b => some b
  | _ => none

/-- A buffer that is built is so by one task, with its target; one that is to be freed is not. -/
structure Builds (s : RefState) : Prop where
  build : ∀ t ∈ s.tasks, ∀ x b target, .build x b target ∈ t.acts →
    ∃ B, s.bufs[b]? = some B ∧ B.targetNode = target ∧ B.status = .building
  free : ∀ t ∈ s.tasks, ∀ b, .freeBuf b ∈ t.acts →
    ∃ B, s.bufs[b]? = some B ∧ B.status ≠ .building
  one : ∀ (i j : Nat) t t' x y b target target', s.tasks[i]? = some t → s.tasks[j]? = some t' →
    .build x b target ∈ t.acts → .build y b target' ∈ t'.acts → i = j

theorem builds_start : Builds start := by
  constructor <;> simp [start]

namespace Builds

/-- The buffers keep their target and their status. -/
def Kept (s s' : RefState) : Prop := ∀ (b : BufId) (B : Buffer), s.bufs[b]? = some B →
  ∃ B' : Buffer, s'.bufs[b]? = some B' ∧ B'.targetNode = B.targetNode ∧ B'.status = B.status

theorem Kept.of_eq (h : s'.bufs = s.bufs) : Kept s s' := fun _ B hB => ⟨B, h ▸ hB, rfl, rfl⟩

/-- One task goes on, without a new buffer. -/
theorem setTask (h : Builds s) (ht : s.tasks[i]? = some ⟨a, act :: rest⟩)
    (hs : s'.tasks = s.tasks.set i ⟨a, acts⟩) (hk : Kept s s')
    (hacts : ∀ act' ∈ acts, act'.buf ≠ none → act' ∈ act :: rest) : Builds s' := by
  have old {j : Nat} {t : Task} (ht' : s'.tasks[j]? = some t) :
      ∃ t₀, s.tasks[j]? = some t₀ ∧ ∀ act' ∈ t.acts, act'.buf ≠ none → act' ∈ t₀.acts := by
    rw [hs] at ht'
    by_cases hij : i = j
    · subst hij
      rw [List.getElem?_set_self (List.getElem?_eq_some_iff.mp ht).1] at ht'
      cases ht'
      exact ⟨_, ht, hacts⟩
    · rw [List.getElem?_set_ne hij] at ht'
      exact ⟨t, ht', fun act' hact' _ => hact'⟩
  refine ⟨?_, ?_, ?_⟩
  · intro t hmem x b target hact
    obtain ⟨j, ht'⟩ := List.getElem?_of_mem hmem
    obtain ⟨t₀, ht₀, hsub⟩ := old ht'
    obtain ⟨B, hB, htg, hst⟩ := h.build t₀ (List.mem_of_getElem? ht₀) x b target
      (hsub _ hact (by simp [Act.buf]))
    obtain ⟨B', hB', htg', hst'⟩ := hk b B hB
    exact ⟨B', hB', htg'.trans htg, hst'.trans hst⟩
  · intro t hmem b hact
    obtain ⟨j, ht'⟩ := List.getElem?_of_mem hmem
    obtain ⟨t₀, ht₀, hsub⟩ := old ht'
    obtain ⟨B, hB, hst⟩ := h.free t₀ (List.mem_of_getElem? ht₀) b (hsub _ hact (by simp [Act.buf]))
    obtain ⟨B', hB', -, hst'⟩ := hk b B hB
    exact ⟨B', hB', hst' ▸ hst⟩
  · intro j k t t' x y b target target' hj hk' hx hy
    obtain ⟨t₀, ht₀, hsub⟩ := old hj
    obtain ⟨t₁, ht₁, hsub'⟩ := old hk'
    exact h.one j k t₀ t₁ x y b target target' ht₀ ht₁ (hsub _ hx (by simp [Act.buf]))
      (hsub' _ hy (by simp [Act.buf]))

/-- A task starts, without a new buffer. -/
theorem addTask (h : Builds s) (hs : s'.tasks = s.tasks ++ [⟨a, acts⟩]) (hk : Kept s s')
    (hacts : ∀ act' ∈ acts, act'.buf = none) : Builds s' := by
  have old {j : Nat} {t : Task} {act : Act} (ht' : s'.tasks[j]? = some t) (hact : act ∈ t.acts)
      (hbuf : act.buf ≠ none) : s.tasks[j]? = some t := by
    rw [hs, List.getElem?_append] at ht'
    split at ht'
    · exact ht'
    · rw [List.getElem?_singleton] at ht'
      split at ht'
      · cases ht'
        exact absurd (hacts act hact) hbuf
      · cases ht'
  refine ⟨?_, ?_, ?_⟩
  · intro t hmem x b target hact
    obtain ⟨j, ht'⟩ := List.getElem?_of_mem hmem
    obtain ⟨B, hB, htg, hst⟩ := h.build t (List.mem_of_getElem? (old ht' hact (by simp [Act.buf])))
      x b target hact
    obtain ⟨B', hB', htg', hst'⟩ := hk b B hB
    exact ⟨B', hB', htg'.trans htg, hst'.trans hst⟩
  · intro t hmem b hact
    obtain ⟨j, ht'⟩ := List.getElem?_of_mem hmem
    obtain ⟨B, hB, hst⟩ := h.free t (List.mem_of_getElem? (old ht' hact (by simp [Act.buf]))) b hact
    obtain ⟨B', hB', -, hst'⟩ := hk b B hB
    exact ⟨B', hB', hst' ▸ hst⟩
  · intro j k t t' x y b target target' hj hk' hx hy
    exact h.one j k t t' x y b target target' (old hj hx (by simp [Act.buf]))
      (old hk' hy (by simp [Act.buf])) hx hy

/-- The task that builds a buffer ends so, and may have to free it. -/
theorem giveUp {st : Status} (h : Builds s) (ht : s.tasks[i]? = some ⟨a, act :: rest⟩)
    (hbuild : .build x b target ∈ act :: rest) (hb : s.bufs[b]? = some B)
    (hs : s'.tasks = s.tasks.set i ⟨a, acts⟩) (hbufs : s'.bufs = s.bufs.set b { B with status := st })
    (hst : st ≠ .building)
    (hacts : ∀ act' ∈ acts, act'.buf = none ∨ act' = .freeBuf b) : Builds s' := by
  have hlt : b < s.bufs.length := (List.getElem?_eq_some_iff.mp hb).1
  have hself : s'.bufs[b]? = some { B with status := st } := by
    rw [hbufs, List.getElem?_set_self hlt]
  have hother {c : BufId} (hne : b ≠ c) : s'.bufs[c]? = s.bufs[c]? := by
    rw [hbufs, List.getElem?_set_ne hne]
  have old {j : Nat} {t : Task} (ht' : s'.tasks[j]? = some t) :
      (j = i ∧ t.acts = acts) ∨ (j ≠ i ∧ s.tasks[j]? = some t) := by
    rw [hs] at ht'
    by_cases hij : i = j
    · subst hij
      rw [List.getElem?_set_self (List.getElem?_eq_some_iff.mp ht).1] at ht'
      cases ht'
      exact .inl ⟨rfl, rfl⟩
    · rw [List.getElem?_set_ne hij] at ht'
      exact .inr ⟨Ne.symm hij, ht'⟩
  have nobuild {y : ThreadId} {c : BufId} {tg : Option NodeId} : .build y c tg ∉ acts := fun hin => by
    rcases hacts _ hin with hn | hn <;> cases hn
  refine ⟨?_, ?_, ?_⟩
  · intro t hmem y c tg hact
    obtain ⟨j, ht'⟩ := List.getElem?_of_mem hmem
    rcases old ht' with ⟨rfl, hacts'⟩ | ⟨hj, ht'⟩
    · exact absurd (hacts' ▸ hact) nobuild
    · have hne : b ≠ c := by
        rintro rfl
        exact hj (h.one j i t _ y x b tg target ht' ht hact hbuild)
      rw [hother hne]
      exact h.build t (List.mem_of_getElem? ht') y c tg hact
  · intro t hmem c hact
    obtain ⟨j, ht'⟩ := List.getElem?_of_mem hmem
    by_cases hne : b = c
    · exact hne ▸ ⟨_, hself, hst⟩
    · rw [hother hne]
      rcases old ht' with ⟨rfl, hacts'⟩ | ⟨hj, ht'⟩
      · rcases hacts _ (hacts' ▸ hact) with hn | hn
        · cases hn
        · cases hn
          exact absurd rfl hne
      · exact h.free t (List.mem_of_getElem? ht') c hact
  · intro j k t t' y z c tg tg' hj hk hy hz
    rcases old hj with ⟨rfl, hacts'⟩ | ⟨-, hj⟩
    · exact absurd (hacts' ▸ hy) nobuild
    rcases old hk with ⟨rfl, hacts'⟩ | ⟨-, hk⟩
    · exact absurd (hacts' ▸ hz) nobuild
    exact h.one j k t t' y z c tg tg' hj hk hy hz

theorem of_env (h : Builds s) (henv : s'.env = s.env) : Builds s' := by
  obtain ⟨h₁, h₂, h₃⟩ := h
  rw [← env_tasks henv] at h₁ h₂ h₃
  rw [← env_bufs henv] at h₁ h₂
  exact ⟨h₁, h₂, h₃⟩

/-- The task `k` has a new buffer. -/
theorem newBuf (h : Builds s) (k : Nat) (hbufs : s'.bufs = s.bufs ++ [B])
    (hst : B.status = .building)
    (hold : ∀ (j : Nat) (t : Task), s'.tasks[j]? = some t → ∀ act ∈ t.acts, act.buf ≠ none →
      (∃ t₀, s.tasks[j]? = some t₀ ∧ act ∈ t₀.acts) ∨
        (j = k ∧ ∃ x, act = .build x s.bufs.length B.targetNode)) : Builds s' := by
  have hnew : s'.bufs[s.bufs.length]? = some B := by simp [hbufs]
  have hkeep {c : BufId} {C : Buffer} (hC : s.bufs[c]? = some C) :
      s'.bufs[c]? = some C ∧ c ≠ s.bufs.length := by
    have hlt : c < s.bufs.length := (List.getElem?_eq_some_iff.mp hC).1
    refine ⟨?_, Nat.ne_of_lt hlt⟩
    rw [hbufs, List.getElem?_append_left hlt, hC]
  refine ⟨?_, ?_, ?_⟩
  · intro t hmem x c tg hact
    obtain ⟨j, ht'⟩ := List.getElem?_of_mem hmem
    rcases hold j t ht' _ hact (by simp [Act.buf]) with ⟨t₀, ht₀, hact₀⟩ | ⟨-, y, hy⟩
    · obtain ⟨C, hC, htg, hst'⟩ := h.build t₀ (List.mem_of_getElem? ht₀) x c tg hact₀
      exact ⟨C, (hkeep hC).1, htg, hst'⟩
    · cases hy
      exact ⟨B, hnew, rfl, hst⟩
  · intro t hmem c hact
    obtain ⟨j, ht'⟩ := List.getElem?_of_mem hmem
    rcases hold j t ht' _ hact (by simp [Act.buf]) with ⟨t₀, ht₀, hact₀⟩ | ⟨-, y, hy⟩
    · obtain ⟨C, hC, hst'⟩ := h.free t₀ (List.mem_of_getElem? ht₀) c hact₀
      exact ⟨C, (hkeep hC).1, hst'⟩
    · cases hy
  · intro j m t t' x y c tg tg' hj hm hx hy
    rcases hold j t hj _ hx (by simp [Act.buf]) with ⟨t₀, ht₀, hact₀⟩ | ⟨rfl, z, hz⟩
    · obtain ⟨C, hC, -⟩ := h.build t₀ (List.mem_of_getElem? ht₀) x c tg hact₀
      rcases hold m t' hm _ hy (by simp [Act.buf]) with ⟨t₁, ht₁, hact₁⟩ | ⟨rfl, z, hz⟩
      · exact h.one j m t₀ t₁ x y c tg tg' ht₀ ht₁ hact₀ hact₁
      · cases hz
        exact absurd rfl (hkeep hC).2
    · cases hz
      rcases hold m t' hm _ hy (by simp [Act.buf]) with ⟨t₁, ht₁, hact₁⟩ | ⟨rfl, -⟩
      · obtain ⟨C, hC, -⟩ := h.build t₁ (List.mem_of_getElem? ht₁) y _ tg' hact₁
        exact absurd rfl (hkeep hC).2
      · rfl

/-- A buffer that is not built changes its status, and may have to be freed. -/
theorem setStatus {st : Status} (h : Builds s) (hb : s.bufs[b]? = some B)
    (hB : B.status ≠ .building) (hst : st ≠ .building)
    (hbufs : s'.bufs = s.bufs.set b { B with status := st })
    (hold : ∀ (j : Nat) (t : Task), s'.tasks[j]? = some t → ∀ act ∈ t.acts, act.buf ≠ none →
      (∃ t₀, s.tasks[j]? = some t₀ ∧ act ∈ t₀.acts) ∨ act = .freeBuf b) : Builds s' := by
  have hlt : b < s.bufs.length := (List.getElem?_eq_some_iff.mp hb).1
  have hself : s'.bufs[b]? = some { B with status := st } := by
    rw [hbufs, List.getElem?_set_self hlt]
  have hother {c : BufId} (hne : b ≠ c) : s'.bufs[c]? = s.bufs[c]? := by
    rw [hbufs, List.getElem?_set_ne hne]
  refine ⟨?_, ?_, ?_⟩
  · intro t hmem x c tg hact
    obtain ⟨j, ht'⟩ := List.getElem?_of_mem hmem
    rcases hold j t ht' _ hact (by simp [Act.buf]) with ⟨t₀, ht₀, hact₀⟩ | hy
    · obtain ⟨C, hC, htg, hst'⟩ := h.build t₀ (List.mem_of_getElem? ht₀) x c tg hact₀
      have hne : b ≠ c := by
        rintro rfl
        rw [hb] at hC
        cases hC
        exact hB hst'
      exact ⟨C, by rw [hother hne, hC], htg, hst'⟩
    · cases hy
  · intro t hmem c hact
    obtain ⟨j, ht'⟩ := List.getElem?_of_mem hmem
    by_cases hne : b = c
    · exact hne ▸ ⟨_, hself, hst⟩
    · rcases hold j t ht' _ hact (by simp [Act.buf]) with ⟨t₀, ht₀, hact₀⟩ | hy
      · rw [hother hne]
        exact h.free t₀ (List.mem_of_getElem? ht₀) c hact₀
      · cases hy
        exact absurd rfl hne
  · intro j m t t' x y c tg tg' hj hm hx hy
    rcases hold j t hj _ hx (by simp [Act.buf]) with ⟨t₀, ht₀, hact₀⟩ | hz
    · rcases hold m t' hm _ hy (by simp [Act.buf]) with ⟨t₁, ht₁, hact₁⟩ | hz
      · exact h.one j m t₀ t₁ x y c tg tg' ht₀ ht₁ hact₀ hact₁
      · cases hz
    · cases hz

end Builds

/-! ### Every step -/

theorem releaseActs_buf {failed : Bool} :
    ∀ act ∈ releaseActs b B failed, act.buf = none ∨ act = .freeBuf b := by
  intro act hact
  simp only [releaseActs, List.mem_append, List.mem_map, List.mem_cons, List.not_mem_nil,
    or_false] at hact
  rcases hact with ⟨m, -, rfl⟩ | rfl | hact | rfl
  · exact .inl rfl
  · exact .inl rfl
  · split at hact
    · obtain ⟨m, -, rfl⟩ := List.mem_map.mp hact
      exact .inl rfl
    · cases hact
  · exact .inr rfl

theorem Builds.Kept.setBuf (hb : s.bufs[b]? = some B) (hs : s'.bufs = s.bufs.set b B')
    (ht : B'.targetNode = B.targetNode) (hst : B'.status = B.status) : Builds.Kept s s' := by
  intro c C hC
  rw [hs]
  by_cases hne : b = c
  · subst hne
    rw [hb] at hC
    cases hC
    exact ⟨B', List.getElem?_set_self (List.getElem?_eq_some_iff.mp hb).1, ht, hst⟩
  · exact ⟨C, by rw [List.getElem?_set_ne hne, hC], rfl, rfl⟩

/-- The end of `binder_inc_ref_for_node`. -/
theorem IncDone.builds {p : ProcId} {why : Why} {res : Option RefId} (h : Builds s)
    (hd : IncDone s i a rest p n strong why res s') (ht : s.tasks[i]? = some ⟨a, act :: rest⟩)
    (hs : Shaped L ⟨a, act :: rest⟩)
    (hact : (∃ list, act = .incRef why p n strong list) ∨ (∃ list, act = .newRef why p n strong list) ∨
      ∃ r list, act = .incNewRef why p n r strong list) : Builds s' := by
  cases hd with
  | object hb =>
    exact h.setTask ht rfl (.setBuf hb rfl rfl rfl) fun act' hact' _ => List.mem_cons_of_mem _ hact'
  | @failed b B hb =>
    have hbuild : ∃ x target, .build x b target ∈ act :: rest := by
      rcases hact with ⟨list, rfl⟩ | ⟨list, rfl⟩ | ⟨r, list, rfl⟩
      all_goals
        obtain ⟨x, b, target, pre, rfl, hp, rfl⟩ := hs.inBuild rfl
        cases hp
        exact ⟨x, target, by simp⟩
    obtain ⟨x, target, hbuild⟩ := hbuild
    refine h.giveUp ht hbuild hb rfl rfl (by simp) fun act' hact' => ?_
    rcases List.mem_cons.mp hact' with rfl | hact'
    · exact .inl rfl
    · exact releaseActs_buf act' hact'
  | command => exact h.setTask ht rfl (.of_eq rfl) fun act' hact' _ => List.mem_cons_of_mem _ hact'
  | again =>
    refine h.setTask ht rfl (.of_eq rfl) fun act' hact' hbuf => ?_
    rcases List.mem_cons.mp hact' with rfl | hact'
    · exact absurd rfl hbuf
    · exact List.mem_cons_of_mem _ hact'

theorem mem_build {pre : List Act} :
    Act.build x b target ∈ act :: (pre ++ [.build x b target]) := by
  simp

theorem ActStep.builds (h : Builds s) (hstep : ActStep L s i a rest act s')
    (ht : s.tasks[i]? = some ⟨a, act :: rest⟩) (hs : Shaped L ⟨a, act :: rest⟩) : Builds s' := by
  have go {s₁ : RefState} (new : List Act) (he : s₁.tasks = s.tasks ∧ s₁.bufs = s.bufs)
      (hnew : ∀ act' ∈ new, act'.buf = none ∨ act' ∈ act :: rest) : Builds (s₁.setTask i a new) := by
    refine h.setTask ht (by rw [← he.1]; rfl) (.of_eq he.2) ?_
    intro act' hact' hbuf
    rcases hnew act' hact' with hn | hn
    · exact absurd hn hbuf
    · exact hn
  have env {s₁ : RefState} (henv : s₁.env = s.env) : s₁.tasks = s.tasks ∧ s₁.bufs = s.bufs :=
    ⟨env_tasks henv, env_bufs henv⟩
  have hrest {act' : Act} (hact' : act' ∈ rest) : act'.buf = none ∨ act' ∈ act :: rest :=
    .inr (List.mem_cons_of_mem _ hact')
  have fails {b : BufId} {B : Buffer} (new : List Act) (hb : s.bufs[b]? = some B)
      (hbuild : ∃ x target, .build x b target ∈ act :: rest) (hnew : ∀ act' ∈ new, act'.buf = none) :
      Builds ((s.setReleasing b B).setTask i a (new ++ releaseActs b B true)) := by
    obtain ⟨x, target, hbuild⟩ := hbuild
    refine h.giveUp ht hbuild hb rfl rfl (by simp) fun act' hact' => ?_
    rcases List.mem_append.mp hact' with hact' | hact'
    · exact .inl (hnew act' hact')
    · exact releaseActs_buf act' hact'
  cases hstep with
  | checks =>
    refine h.newBuf i rfl rfl fun j t ht' act' hact' _ => ?_
    have hij := ht'
    simp only [RefState.setTask, RefState.addBuf] at hij
    by_cases hj : i = j
    · subst hj
      rw [List.getElem?_set_self (List.getElem?_eq_some_iff.mp ht).1] at hij
      cases hij
      rcases List.mem_cons.mp hact' with rfl | hact'
      · exact .inr ⟨rfl, _, rfl⟩
      · exact .inl ⟨_, ht, List.mem_cons_of_mem _ hact'⟩
    · rw [List.getElem?_set_ne hj] at hij
      exact .inl ⟨t, hij, hact'⟩
  | newNodeFail hb =>
    obtain ⟨x, b, target, pre, rfl, hp, rfl⟩ := hs.inBuild rfl
    cases hp
    exact fails [] hb ⟨_, _, mem_build⟩ (by simp)
  | translateBinderFail hb | translateHandleFail hb =>
    obtain ⟨x, b, target, pre, rfl, hp, rfl⟩ := hs.inBuild rfl
    cases hp
    exact fails [_] hb ⟨_, _, mem_build⟩ (by simp [Act.buf])
  | translateOwn _ hb =>
    exact h.setTask ht rfl (.setBuf hb rfl rfl rfl) fun act' hact' _ => List.mem_cons_of_mem _ hact'
  | @incFound _ _ _ _ _ _ _ _ s₁ _ hact _ _ hinc hdone =>
    have henv := incRef_env hinc
    refine hdone.builds (h.of_env henv) (by rw [env_tasks henv]; exact ht) hs ?_
    rcases hact with rfl | rfl
    · exact .inl ⟨_, rfl⟩
    · exact .inr (.inl ⟨_, rfl⟩)
  | incNoMem _ _ hdone => exact hdone.builds h ht hs (.inl ⟨_, rfl⟩)
  | incNew hinc hdone =>
    have henv := incRef_env hinc
    exact hdone.builds (h.of_env henv) (by rw [env_tasks henv]; exact ht) hs (.inr (.inr ⟨_, _, rfl⟩))
  | freeBuf hb =>
    obtain ⟨B, hB, hst⟩ := h.free _ (List.mem_of_getElem? ht) _ List.mem_cons_self
    rw [hb] at hB
    cases hB
    refine h.setStatus hb hst (by simp) rfl fun j t ht' act' hact' _ => ?_
    have hij := ht'
    simp only [RefState.setTask, RefState.setBuf] at hij
    by_cases hj : i = j
    · subst hj
      rw [List.getElem?_set_self (List.getElem?_eq_some_iff.mp ht).1] at hij
      cases hij
      exact .inl ⟨_, ht, List.mem_cons_of_mem _ hact'⟩
    · rw [List.getElem?_set_ne hj] at hij
      exact .inl ⟨t, hij, hact'⟩
  | newNode hn =>
    refine go _ (env (initNode_env hn)) fun act' hact' => ?_
    simp only [List.mem_cons] at hact'
    rcases hact' with rfl | rfl | hact'
    · exact .inl rfl
    · exact .inl rfl
    · exact hrest hact'
  | addRef _ _ hadd =>
    refine go _ (env (addRef_env hadd)) fun act' hact' => ?_
    rcases List.mem_cons.mp hact' with rfl | hact'
    · exact .inl rfl
    · exact hrest hact'
  | decNode h => exact go _ (env (decNode_env h)) fun _ => hrest
  | putNode h => exact go _ (env (putNode_env h)) fun _ => hrest
  | cleanupRef h => exact go _ (env (cleanupRef_env h)) fun _ => hrest
  | updateInc _ _ hinc => exact go _ (env (incRef_env hinc)) fun _ => hrest
  | done _ _ hdec =>
    have henv := decNilocked_env hdec
    exact go _ ⟨(env_tasks henv :), (env_bufs henv :)⟩ fun _ => hrest
  | @releaseHandle p o os r last _ _ _ _ hdec =>
    refine go _ (env (decRef_env hdec)) fun act' hact' => ?_
    rcases List.mem_append.mp hact' with hact' | hact'
    · split at hact'
      · rw [List.mem_singleton.mp hact']
        exact .inl rfl
      · cases hact'
    · rcases List.mem_cons.mp hact' with rfl | hact'
      · exact .inl rfl
      · exact hrest hact'
  | @updateDec p desc strong r last s₁ _ _ hdec =>
    refine go _ (env (decRef_env hdec)) fun act' hact' => ?_
    rcases List.mem_append.mp hact' with hact' | hact'
    · split at hact'
      · rw [List.mem_singleton.mp hact']
        exact .inl rfl
      · cases hact'
    · exact hrest hact'
  | releaseRefs _ _ h =>
    refine go _ (env (cleanupRef_env h)) fun act' hact' => ?_
    rcases List.mem_cons.mp hact' with rfl | hact'
    · exact .inl rfl
    · exact hrest hact'
  | dropWork => exact go _ ⟨rfl, rfl⟩ fun _ hact' => .inr hact'
  | releaseEnd | updateNone | doneBad | dropEnd | clearNone | releaseNodesEnd | releaseRefsEnd
  | becomeMgr | clearMgr | setDead | nodeReleaseFree => exact go _ ⟨rfl, rfl⟩ fun _ => hrest
  | translateBinder | translateHandle | incAlloc | releaseSkip | nodeRelease =>
    refine go _ ⟨rfl, rfl⟩ fun act' hact' => ?_
    rcases List.mem_cons.mp hact' with rfl | hact'
    · exact .inl rfl
    · exact hrest hact'
  | checksFail | releaseNodes =>
    refine go _ ⟨rfl, rfl⟩ fun act' hact' => ?_
    simp only [List.mem_cons] at hact'
    rcases hact' with rfl | rfl | hact'
    · exact .inl rfl
    · exact .inl rfl
    · exact hrest hact'
  | releaseBinder =>
    refine go _ ⟨rfl, rfl⟩ fun act' hact' => ?_
    simp only [List.mem_cons] at hact'
    rcases hact' with rfl | rfl | rfl | hact'
    · exact .inl rfl
    · exact .inl rfl
    · exact .inl rfl
    · exact hrest hact'

theorem Builds.exec (h : Builds s) (hs : Shape L s) (he : s.exec L op = some s') : Builds s' := by
  have go {i : Nat} {a : Actor} {act : Act} {rest : List Act} {s' : RefState} (new : List Act)
      (ht : s.tasks[i]? = some ⟨a, act :: rest⟩) (htasks : s'.tasks = s.tasks.set i ⟨a, new ++ act :: rest⟩)
      (hb : s'.bufs = s.bufs) (hnew : ∀ act' ∈ new, act'.buf = none) : Builds s' := by
    refine h.setTask ht htasks (.of_eq hb) fun act' hact' hbuf => ?_
    rcases List.mem_append.mp hact' with hact' | hact'
    · exact absurd (hnew act' hact') hbuf
    · exact hact'
  have build {i : Nat} {a : Actor} {x : ThreadId} {b : BufId} {target : Option NodeId}
      {rest : List Act} (ht : s.tasks[i]? = some ⟨a, .build x b target :: rest⟩) :
      a = .thread x ∧ rest = [] := (hs.task _ (List.mem_of_getElem? ht)).build
  -- a new task
  have old {j : Nat} {t : Task} {a : Actor} {acts : List Act}
      (ht' : (s.tasks ++ [⟨a, acts⟩])[j]? = some t) :
      s.tasks[j]? = some t ∨ (j = s.tasks.length ∧ t.acts = acts) := by
    rw [List.getElem?_append] at ht'
    split at ht'
    · exact .inl ht'
    · rw [List.getElem?_singleton] at ht'
      split at ht'
      · cases ht'
        exact .inr ⟨by omega, rfl⟩
      · cases ht'
  cases exec_cases he with
  | transaction | update | updateMgr | doneCommand | nodeInfo | showNode | threadExit | close =>
    exact h.addTask rfl (.of_eq rfl) (by simp [Act.buf])
  | tell | tellFree => exact ⟨h.build, h.free, h.one⟩
  | reply =>
    refine h.newBuf s.tasks.length rfl rfl fun j t ht' act' hact' _ => ?_
    rcases old ht' with ht' | ⟨rfl, hacts⟩
    · exact .inl ⟨t, ht', hact'⟩
    · rw [hacts] at hact'
      exact .inr ⟨rfl, _, List.mem_singleton.mp hact'⟩
  | binderFound ht => exact go [_, _] ht rfl rfl (by simp [Act.buf])
  | binderNew ht => exact go [_] ht rfl rfl (by simp [Act.buf])
  | handle ht => exact go [_, _] ht rfl rfl (by simp [Act.buf])
  | fails _ ht hb =>
    exact h.giveUp ht List.mem_cons_self hb rfl rfl (by simp) releaseActs_buf
  | @send _ _ _ _ target _ _ ht hb =>
    obtain ⟨rfl, rfl⟩ := build ht
    refine h.giveUp ht List.mem_cons_self hb rfl rfl (by simp) fun act' hact' => .inl ?_
    simp only [List.append_nil, List.mem_map] at hact'
    obtain ⟨m, -, rfl⟩ := hact'
    rfl
  | freeBuffer _ hb hst =>
    refine h.setStatus hb (by simp [hst]) (by simp) rfl fun j t ht' act' hact' hbuf => ?_
    rcases old ht' with ht' | ⟨rfl, hacts⟩
    · exact .inl ⟨t, ht', hact'⟩
    · rcases releaseActs_buf act' (hacts ▸ hact') with hn | hn
      · exact absurd hn hbuf
      · exact .inr hn
  | @setCtxMgr x ptr cookie n s₁ _ _ _ hn =>
    have henv := initNode_env hn
    exact (h.of_env henv).addTask rfl (.of_eq rfl) (by simp [Act.buf])
  | run ht hact => exact hact.builds h ht (hs.task _ (List.mem_of_getElem? ht))

end Redroid.Binder.Refs
