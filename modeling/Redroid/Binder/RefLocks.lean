import Redroid.Binder.RefLeak
import Redroid.Binder.Translate

/-!
# Who holds the locks, and the nodes that are on no list

* `Act.offers`: the acts that can put the work of a node on the `todo` list of the thread that sends
  it. `Continues`: with what a task goes on, as far as these and the outer locks are concerned.
* `Locked`: one task holds the outer lock of a process, the reference it works on is there, and a node
  that is sent keeps its process; so the work of a node without a process is on no list.
-/

namespace Redroid.Binder.Refs

open RefState

/-- The node that the thread of the act sends as an object of its own. -/
def Act.offers : Act → Option NodeId
  | .translateBinder _ _ n _ => some n
  | .incRef _ _ n _ (some _) | .newRef _ _ n _ (some _) | .incNewRef _ _ n _ _ (some _) => some n
  | _ => none

/-- The act neither holds an outer lock nor sends a node. -/
def Act.plain (act : Act) : Prop := act.outer = none ∧ act.offers = none

/-- The acts `acts` come after `act`, before which a task had `rest` left to do. -/
inductive Continues (L : Layout) (s s' : RefState) (act : Act) (rest : List Act) : List Act → Prop
  | plain {acts} : (∀ act' ∈ acts, act' ∈ rest ∨ act'.plain) → Continues L s s' act rest acts
  | newNode {x b n o s₁} : s.initNode (L.procOf x) o.binder o.cookie = some (n, s₁) →
      s'.node = s₁.node → act = .newNode x b o →
      Continues L s s' act rest (.translateBinder x b n o :: .putNode n :: rest)
  | found {x b target n o} : act = .build x b target → s.getNode (L.procOf x) o.binder = some n →
      Continues L s s' act rest (.translateBinder x b n o :: .putNode n :: act :: rest)
  | offers {act' n} : act.offers = some n → act'.offers = some n → act'.outer = none →
      Continues L s s' act rest (act' :: rest)
  | addRef {why p n strong list s₁} : act = .newRef why p n strong list → s.outerFree p = true →
      s.addRef L p n = some s₁ → s'.ref = s₁.ref →
      Continues L s s' act rest (.incNewRef why p n s.nextRef strong list :: rest)
  | cleanup {p r acts} : (∀ k, ¬ Removes s k act) → s.outerFree p = true → r ∈ s.refsByDesc p →
      (∀ act' ∈ acts, act' ∈ rest ∨ act'.plain) →
      Continues L s s' act rest (.cleanupRef p r :: acts)

/-- The task that goes on with the step. -/
def RefOp.task : RefOp → Option Nat
  | .object i _ | .send i | .fail i | .run i _ => some i
  | _ => none

/-- The task `i` is at an act with the outer lock of `p`. -/
def Holds (s : RefState) (i : Nat) (p : ProcId) : Prop :=
  ∃ (a : Actor) (act : Act) (rest : List Act), s.tasks[i]? = some ⟨a, act :: rest⟩ ∧ act.outer = some p

/-- What the tasks rely on. -/
structure Locked (L : Layout) (s : RefState) : Prop where
  head : ∀ t ∈ s.tasks, ∀ act ∈ t.acts.tail, act.plain
  excl : ∀ i j p, Holds s i p → Holds s j p → i = j
  held : ∀ (i : Nat) a act rest p r, s.tasks[i]? = some ⟨a, act :: rest⟩ → act.worksOn p r →
    ∃ R, s.ref r = some R ∧ R.proc = p ∧
      ∀ why n strong list, act = .incNewRef why p n r strong list → R.node = n
  offers : ∀ t ∈ s.tasks, ∀ act ∈ t.acts, ∀ n, act.offers = some n → .putNode n ∈ t.acts ∧
    ∃ x N, t.actor = .thread x ∧ s.node n = some N ∧ N.proc = some (L.procOf x)
  unlisted : ∀ n N, s.node n = some N → N.proc = none → N.work = none

variable {L : Layout} {s s' s₁ : RefState} {m n : NodeId} {N N' : Node} {p q : ProcId} {b : BufId}
  {B : Buffer} {x : ThreadId} {r : RefId} {R : Ref} {i j : Nat} {a : Actor} {act act' : Act}
  {rest acts : List Act} {op : RefOp} {strong : Bool} {list : Option ThreadId}

/-! ## With what a task goes on -/

theorem releaseActs_plain {failed : Bool} : ∀ act ∈ releaseActs b B failed, act.plain := by
  intro act hact
  simp only [releaseActs, List.mem_append, List.mem_map, List.mem_cons, List.not_mem_nil,
    or_false] at hact
  rcases hact with ⟨m, -, rfl⟩ | rfl | hact | rfl
  · exact ⟨rfl, rfl⟩
  · exact ⟨rfl, rfl⟩
  · split at hact
    · obtain ⟨m, -, rfl⟩ := List.mem_map.mp hact
      exact ⟨rfl, rfl⟩
    · cases hact
  · exact ⟨rfl, rfl⟩

theorem IncDone.continues {why : Why} {res : Option RefId} (h : IncDone s i a rest p n strong why res s') :
    ∃ acts, s'.tasks = s.tasks.set i ⟨a, acts⟩ ∧ ∀ act' ∈ acts, act' ∈ rest ∨ act'.plain := by
  cases h with
  | object | command => exact ⟨_, rfl, fun _ h => .inl h⟩
  | failed =>
    refine ⟨_, rfl, fun act' hact => .inr ?_⟩
    rcases List.mem_cons.mp hact with rfl | hact
    · exact ⟨rfl, rfl⟩
    · exact releaseActs_plain act' hact
  | again =>
    refine ⟨_, rfl, fun act' hact => ?_⟩
    rcases List.mem_cons.mp hact with rfl | hact
    · exact .inr ⟨rfl, rfl⟩
    · exact .inl hact

theorem ActStep.continues (h : ActStep L s i a rest act s') :
    ∃ acts, s'.tasks = s.tasks.set i ⟨a, acts⟩ ∧ Continues L s s' act rest acts := by
  have env {s₁ : RefState} {acts : List Act} (h : s₁.env = s.env)
      (hc : Continues L s (s₁.setTask i a acts) act rest acts) :
      ∃ acts', (s₁.setTask i a acts).tasks = s.tasks.set i ⟨a, acts'⟩ ∧
        Continues L s (s₁.setTask i a acts) act rest acts' :=
    ⟨acts, by rw [← env_tasks h]; rfl, hc⟩
  -- plain acts before the rest
  have before (new : List Act) (hnew : ∀ act' ∈ new, act'.plain) :
      ∀ act' ∈ new ++ rest, act' ∈ rest ∨ act'.plain := by
    intro act' hact
    rcases List.mem_append.mp hact with hact | hact
    · exact .inr (hnew act' hact)
    · exact .inl hact
  have keep : ∀ act' ∈ rest, act' ∈ rest ∨ act'.plain := fun _ h => .inl h
  cases h with
  | checksFail => exact ⟨_, rfl, .plain (before [_, _] (by simp [Act.plain, Act.outer, Act.offers]))⟩
  | checks => exact ⟨_, rfl, .plain (before [_] (by simp [Act.plain, Act.outer, Act.offers]))⟩
  | newNodeFail => exact ⟨_, rfl, .plain fun act' h => .inr (releaseActs_plain act' h)⟩
  | newNode h => exact env (initNode_env h) (.newNode h rfl rfl)
  | translateBinderFail | translateHandleFail =>
    refine ⟨_, rfl, .plain fun act' hact => .inr ?_⟩
    rcases List.mem_cons.mp hact with rfl | hact
    · exact ⟨rfl, rfl⟩
    · exact releaseActs_plain act' hact
  | translateBinder => exact ⟨_, rfl, .offers rfl rfl rfl⟩
  | translateOwn | releaseEnd | freeBuf | updateNone | doneBad | becomeMgr | dropEnd | clearMgr
  | clearNone | setDead | releaseNodesEnd | nodeReleaseFree | releaseRefsEnd =>
    exact ⟨_, rfl, .plain keep⟩
  | translateHandle => exact ⟨_, rfl, .plain (before [_] (by simp [Act.plain, Act.outer, Act.offers]))⟩
  | incFound _ _ _ hinc hdone | incNew hinc hdone =>
    rw [← env_tasks (incRef_env hinc)]
    obtain ⟨acts, hs, hacts⟩ := hdone.continues
    exact ⟨acts, hs, .plain hacts⟩
  | incNoMem _ _ hdone =>
    obtain ⟨acts, hs, hacts⟩ := hdone.continues
    exact ⟨acts, hs, .plain hacts⟩
  | @incAlloc _ _ _ _ list =>
    refine ⟨_, rfl, ?_⟩
    cases list with
    | some x => exact .offers rfl rfl rfl
    | none => exact .plain (before [_] (by simp [Act.plain, Act.outer, Act.offers]))
  | addRef hf _ h => exact env (addRef_env h) (.addRef rfl hf h rfl)
  | decNode h => exact env (decNode_env h) (.plain keep)
  | putNode h => exact env (putNode_env h) (.plain keep)
  | releaseSkip => exact ⟨_, rfl, .plain (before [_] (by simp [Act.plain, Act.outer, Act.offers]))⟩
  | releaseBinder =>
    exact ⟨_, rfl, .plain (before [_, _, _] (by simp [Act.plain, Act.outer, Act.offers]))⟩
  | @releaseHandle p o os r last s₁ _ hf hr h =>
    refine env (decRef_env h) ?_
    have hos := before [.releaseObjects p os] (by simp [Act.plain, Act.outer, Act.offers])
    cases last with
    | false => exact .plain hos
    | true => exact .cleanup nofun hf (getRef_mem hr) hos
  | @updateDec p desc strong r last s₁ hf hr h =>
    refine env (decRef_env h) ?_
    cases last with
    | false => exact .plain keep
    | true => exact .cleanup nofun hf (getRef_mem hr) keep
  | cleanupRef h => exact env (cleanupRef_env h) (.plain keep)
  | updateInc _ _ h => exact env (incRef_env h) (.plain keep)
  | @done _ _ _ _ s₁ _ _ h =>
    have htasks := env_tasks (decNilocked_env h)
    exact ⟨rest, congrArg (List.set · i _) htasks, .plain keep⟩
  | dropWork hact =>
    refine ⟨_, rfl, .plain (before [_] ?_)⟩
    rcases hact with ⟨l, rfl⟩ | ⟨p, rfl⟩ <;> simp [Act.plain, Act.outer, Act.offers]
  | releaseNodes =>
    exact ⟨_, rfl, .plain (before [_, _] (by simp [Act.plain, Act.outer, Act.offers]))⟩
  | nodeRelease => exact ⟨_, rfl, .plain (before [_] (by simp [Act.plain, Act.outer, Act.offers]))⟩
  | releaseRefs _ _ h =>
    exact env (cleanupRef_env h) (.plain (before [_] (by simp [Act.plain, Act.outer, Act.offers])))

/-- A task after a step is an old one, goes on, or is new. -/
theorem exec_continues (he : s.exec L op = some s') {t : Task} (hj : s'.tasks[j]? = some t) :
    (s.tasks[j]? = some t ∧ op.task ≠ some j) ∨
      (op.task = some j ∧ ∃ act rest, s.tasks[j]? = some ⟨t.actor, act :: rest⟩ ∧
        Continues L s s' act rest t.acts) ∨
      ∀ act ∈ t.acts, act.plain := by
  have set {i : Nat} {a : Actor} {act : Act} {rest acts : List Act}
      (hi : s.tasks[i]? = some ⟨a, act :: rest⟩)
      (hs : s'.tasks = s.tasks.set i ⟨a, acts⟩) (hop : op.task = some i)
      (hc : Continues L s s' act rest acts) :
      (s.tasks[j]? = some t ∧ op.task ≠ some j) ∨
        (op.task = some j ∧ ∃ act rest, s.tasks[j]? = some ⟨t.actor, act :: rest⟩ ∧
          Continues L s s' act rest t.acts) ∨
        ∀ act ∈ t.acts, act.plain := by
    by_cases hij : i = j
    · subst hij
      rw [hs, List.getElem?_set_self (List.getElem?_eq_some_iff.mp hi).1] at hj
      cases hj
      exact .inr (.inl ⟨hop, _, _, hi, hc⟩)
    · rw [hs, List.getElem?_set_ne hij] at hj
      exact .inl ⟨hj, fun h => hij (Option.some.inj (hop.symm.trans h))⟩
  have add {a : Actor} {acts : List Act} (hs : s'.tasks = s.tasks ++ [⟨a, acts⟩]) (hop : op.task = none)
      (hacts : ∀ act ∈ acts, act.plain) : (s.tasks[j]? = some t ∧ op.task ≠ some j) ∨
        (op.task = some j ∧ ∃ act rest, s.tasks[j]? = some ⟨t.actor, act :: rest⟩ ∧
          Continues L s s' act rest t.acts) ∨
        ∀ act ∈ t.acts, act.plain := by
    rw [hs, List.getElem?_append] at hj
    split at hj
    · exact .inl ⟨hj, by rw [hop]; nofun⟩
    · have := List.mem_of_getElem? hj
      rw [List.mem_singleton] at this
      subst this
      exact .inr (.inr hacts)
  have build {x : ThreadId} {b : BufId} {target : Option NodeId} {rest : List Act} (new : List Act)
      (hnew : ∀ act' ∈ new, act'.plain) :
      Continues L s s' (.build x b target) rest (new ++ .build x b target :: rest) := by
    refine .plain fun act' hact => ?_
    rcases List.mem_append.mp hact with hact | hact
    · exact .inr (hnew act' hact)
    rcases List.mem_cons.mp hact with rfl | hact
    · exact .inr ⟨rfl, rfl⟩
    · exact .inl hact
  cases exec_cases he with
  | transaction | reply | update | doneCommand | nodeInfo | showNode | threadExit | close =>
    exact add rfl rfl (by simp [Act.plain, Act.outer, Act.offers])
  | updateMgr => exact add rfl rfl (by simp [Act.plain, Act.outer, Act.offers])
  | freeBuffer => exact add rfl rfl releaseActs_plain
  | setCtxMgr _ _ _ hn =>
    exact add (by rw [← env_tasks (initNode_env hn)]; rfl) rfl (by simp [Act.plain, Act.outer, Act.offers])
  | tell | tellFree => exact .inl ⟨hj, nofun⟩
  | binderFound hi _ hget => exact set hi rfl rfl (.found rfl hget)
  | binderNew hi => exact set hi rfl rfl (build [_] (by simp [Act.plain, Act.outer, Act.offers]))
  | handle hi => exact set hi rfl rfl (build [_, _] (by simp [Act.plain, Act.outer, Act.offers]))
  | fails hop hi =>
    refine set hi rfl ?_ (.plain fun act' h => .inr (releaseActs_plain act' h))
    rcases hop with rfl | rfl | ⟨o, rfl⟩ <;> rfl
  | @send _ _ _ _ target _ _ hi =>
    refine set hi rfl rfl (.plain fun act' hact => ?_)
    rcases List.mem_append.mp hact with hact | hact
    · obtain ⟨k, -, rfl⟩ := List.mem_map.mp hact
      exact .inr ⟨rfl, rfl⟩
    · exact .inl hact
  | run hi h =>
    obtain ⟨acts, hs, hc⟩ := h.continues
    exact set hi hs rfl hc

theorem Continues.tail (h : Continues L s s' act rest acts) (hrest : ∀ act' ∈ rest, act'.plain) :
    ∀ act' ∈ acts.tail, act'.plain := by
  have mem {acts : List Act} (h : ∀ act' ∈ acts, act' ∈ rest ∨ act'.plain) :
      ∀ act' ∈ acts, act'.plain := fun act' hact => (h act' hact).elim (hrest act') id
  cases h with
  | plain h => exact fun act' hact => mem h act' (List.mem_of_mem_tail hact)
  | newNode =>
    intro act' hact
    rcases List.mem_cons.mp hact with rfl | hact
    · exact ⟨rfl, rfl⟩
    · exact hrest act' hact
  | found hact =>
    subst hact
    intro act' hact
    rcases List.mem_cons.mp hact with rfl | hact
    · exact ⟨rfl, rfl⟩
    rcases List.mem_cons.mp hact with rfl | hact
    · exact ⟨rfl, rfl⟩
    · exact hrest act' hact
  | offers | addRef => exact hrest
  | cleanup _ _ _ h => exact mem h

/-- A lock that a task goes on with is free before. -/
theorem Continues.outerFree (h : Continues L s s' act rest (act' :: acts))
    (hrest : ∀ act' ∈ rest, act'.plain) (ho : act'.outer = some p) : s.outerFree p = true := by
  cases h with
  | plain h =>
    rcases h act' List.mem_cons_self with hact | hact
    · rw [(hrest act' hact).1] at ho
      cases ho
    · rw [hact.1] at ho
      cases ho
  | newNode | found => cases ho
  | offers _ _ hplain =>
    rw [hplain] at ho
    cases ho
  | addRef _ hf | cleanup _ hf =>
    cases ho
    exact hf

/-! ## What stays -/

/-- A reference is the same one after a step that does not remove it. -/
theorem ref_stays (ht : Tables s) (he : s.exec L op = some s') (hR : s.ref r = some R)
    (hno : ∀ act, Runs s op act → ¬ Removes s r act) :
    ∃ R', s'.ref r = some R' ∧ R'.proc = R.proc ∧ R'.node = R.node := by
  have set {k : RefId} {K K' : Ref} (hK : s.ref k = some K) (hs : s'.ref = Function.update s.ref k (some K'))
      (hp : K'.proc = K.proc) (hn : K'.node = K.node) :
      ∃ R', s'.ref r = some R' ∧ R'.proc = R.proc ∧ R'.node = R.node := by
    by_cases hk : r = k
    · subst hk
      rw [hR] at hK
      cases hK
      exact ⟨K', by rw [hs, Function.update_self], hp, hn⟩
    · exact ⟨R, by rw [hs, Function.update_of_ne hk, hR], rfl, rfl⟩
  cases exec_refStep he ht.fresh with
  | same hs => exact ⟨R, by rw [hs.ref, hR], rfl, rfl⟩
  | inc _ _ hi hs =>
    obtain ⟨K, hK, ⟨-, -, rfl⟩ | ⟨-, -, rfl⟩ | ⟨-, -, N, -, -, rfl⟩⟩ := incRef_cases hi
    · exact ⟨R, by rw [hs.ref, hR], rfl, rfl⟩
    · exact set hK hs.ref (by simp) (by simp)
    · exact set hK hs.ref (by simp) (by simp)
  | dec _ _ hd hs =>
    obtain ⟨K, hK, ⟨-, rfl, -⟩ | ⟨-, -, -, rfl⟩ | ⟨-, -, -, N, -, rfl⟩⟩ :=
      decRef_cases hd fun R hR => ht.onNode _ R hR
    · exact ⟨R, by rw [hs.ref, hR], rfl, rfl⟩
    · exact set hK hs.ref (by simp) (by simp)
    · exact set hK hs.ref (by simp) (by simp)
  | add _ _ ha hs =>
    obtain ⟨N, qs, -, -, rfl⟩ := addRef_eq ha
    have hne : r ≠ s.nextRef := (ht.refLt r R hR).ne
    exact ⟨R, by rw [hs.ref]; exact (Function.update_of_ne hne ..).trans hR, rfl, rfl⟩
  | @remove i a act rest k ok _ _ hi hrem hc hs =>
    have hk : r ≠ k := by
      rintro rfl
      exact hno act ⟨i, ok, a, rest, rfl, hi⟩ hrem
    refine ⟨R, ?_, rfl, rfl⟩
    obtain ⟨K, N, w, -, -, -, ⟨-, rfl⟩ | ⟨-, rfl⟩⟩ := cleanupRef_cases hc fun R hR => ht.onNode _ R hR
    all_goals exact hs.ref ▸ (Function.update_of_ne hk ..).trans hR

/-- The release of the references of a process takes its outer lock. -/
theorem releaseRefs_outerFree {ok : Bool} (hi : s.tasks[i]? = some ⟨a, .releaseRefs p :: rest⟩)
    (he : s.exec L (.run i ok) = some s') : s.outerFree p = true := by
  obtain ⟨t, ht, he⟩ := Option.bind_eq_some_iff.mp he
  rw [hi] at ht
  cases ht
  exact (guard_bind he).1

/-- A node of an open process keeps it while a task has a temporary reference on the node. -/
theorem owner_stays (hg : Good L s) (he : s.exec L op = some s') (hN : s.node n = some N)
    (hp : N.proc = some p) (hopen : s.closed p = false) {t : Task} (ht : t ∈ s'.tasks)
    (hput : .putNode n ∈ t.acts) : ∃ N', s'.node n = some N' ∧ N'.proc = some p := by
  obtain ⟨N', hN'⟩ := (hg.exec he).tmp.node ht hput
  refine ⟨N', hN', ?_⟩
  rcases exec_old hg he hN' with ⟨K, hK, -, hKp | ⟨-, q, -, hq, hclosed⟩⟩ | ⟨hnew, -⟩
  · rw [hN] at hK
    cases hK
    exact hKp.trans hp
  · rw [hN] at hK
    cases hK
    rw [hp] at hq
    cases hq
    rw [hopen] at hclosed
    cases hclosed
  · exact absurd (hg.tables.nodeLt n N hN) (hnew ▸ lt_irrefl _)

/-! ## Every reachable state -/

theorem Holds.not_free (h : Holds s i p) : s.outerFree p ≠ true := by
  obtain ⟨a, act, rest, hi, ho⟩ := h
  intro hf
  have := List.all_eq_true.mp hf _ (List.mem_of_getElem? hi)
  simp [ho] at this

/-- The work of a node without a process stays on no list. -/
theorem Node.dec_unlisted (hp : N.proc = none) (hw : N.work = none) (strong internal : Bool) :
    (N.dec strong internal).2.work = none := by
  obtain ⟨w, hdec, rfl | ⟨-, rfl⟩ | ⟨p, hp', -⟩⟩ := N.dec_eq strong internal
  · rw [hdec]
    exact hw
  · rw [hdec]
  · rw [hp] at hp'
    cases hp'

namespace Locked

theorem tailPlain (h : Locked L s) (hi : s.tasks[i]? = some ⟨a, act :: rest⟩) : ∀ act' ∈ rest, act'.plain :=
  h.head _ (List.mem_of_getElem? hi)

theorem start : Locked L start := by
  constructor <;> simp [Refs.start, Holds]

theorem exec_head (h : Locked L s) (he : s.exec L op = some s') :
    ∀ t ∈ s'.tasks, ∀ act ∈ t.acts.tail, act.plain := by
  intro t ht act hact
  obtain ⟨j, hj⟩ := List.getElem?_of_mem ht
  rcases exec_continues he hj with ⟨hold, -⟩ | ⟨-, act₀, rest, hi, hc⟩ | hnew
  · exact h.head t (List.mem_of_getElem? hold) act hact
  · exact hc.tail (h.tailPlain hi) act hact
  · exact hnew act (List.mem_of_mem_tail hact)

/-- A lock that is held after a step was held before, or the step takes it. -/
theorem exec_holds (h : Locked L s) (he : s.exec L op = some s') (hj : Holds s' j p) :
    Holds s j p ∨ (op.task = some j ∧ s.outerFree p = true) := by
  obtain ⟨a, act, rest, hj, ho⟩ := hj
  rcases exec_continues he hj with ⟨hold, -⟩ | ⟨hop, act₀, rest₀, hi, hc⟩ | hnew
  · exact .inl ⟨a, act, rest, hold, ho⟩
  · exact .inr ⟨hop, hc.outerFree (h.tailPlain hi) ho⟩
  · rw [(hnew act List.mem_cons_self).1] at ho
    cases ho

theorem exec_excl (h : Locked L s) (he : s.exec L op = some s') (hi : Holds s' i p) (hj : Holds s' j p) :
    i = j := by
  rcases h.exec_holds he hi with hi | ⟨hopi, hfi⟩
  · rcases h.exec_holds he hj with hj | ⟨-, hf⟩
    · exact h.excl i j p hi hj
    · exact absurd hf hi.not_free
  · rcases h.exec_holds he hj with hj | ⟨hopj, -⟩
    · exact absurd hfi hj.not_free
    · exact Option.some.inj (hopi.symm.trans hopj)

theorem exec_held (h : Locked L s) (ht : Tables s) (he : s.exec L op = some s')
    (hj : s'.tasks[j]? = some ⟨a, act :: rest⟩) (hw : act.worksOn p r) :
    ∃ R, s'.ref r = some R ∧ R.proc = p ∧
      ∀ why n strong list, act = .incNewRef why p n r strong list → R.node = n := by
  rcases exec_continues he hj with ⟨hold, hop⟩ | ⟨hop, act₀, rest₀, hi, hc⟩ | hnew
  · -- another task does not remove the reference
    obtain ⟨R, hR, hp, hn⟩ := h.held j a act rest p r hold hw
    have hholds : Holds s j p := ⟨a, act, rest, hold, hw.outer⟩
    obtain ⟨R', hR', hp', hn'⟩ := ref_stays ht he hR fun act' ⟨i, ok, a', rest', hrun, hi⟩ hrem => by
      subst hrun
      cases hrem with
      | @cleanup q =>
        obtain ⟨K, hK, hq, -⟩ := h.held i a' _ rest' q r hi (.inr rfl)
        rw [hR] at hK
        cases hK
        have hpq : p = q := hp.symm.trans hq
        subst hpq
        have hij := h.excl i j p ⟨a', _, rest', hi, rfl⟩ hholds
        exact hop (congrArg some hij)
      | @release q rs hr =>
        obtain ⟨K, hK, hq⟩ := (ht.byDesc q r).mp (hr ▸ List.mem_cons_self)
        rw [hR] at hK
        cases hK
        have hpq : p = q := hp.symm.trans hq
        subst hpq
        exact hholds.not_free (releaseRefs_outerFree hi he)
    exact ⟨R', hR', hp'.trans hp, fun why n strong list hact => hn'.trans (hn why n strong list hact)⟩
  · have hplain := h.tailPlain hi
    have ho := hw.outer
    generalize hacts : act :: rest = acts at hc
    cases hc with
    | plain hc =>
      subst hacts
      rcases hc act List.mem_cons_self with hact | hact
      · rw [(hplain act hact).1] at ho
        cases ho
      · rw [hact.1] at ho
        cases ho
    | newNode | found =>
      cases hacts
      cases ho
    | offers _ _ hout =>
      cases hacts
      rw [hout] at ho
      cases ho
    | addRef _ _ hadd href =>
      cases hacts
      rcases hw with ⟨why, n, strong, list, hact⟩ | hact
      · cases hact
        obtain ⟨N, qs, -, -, rfl⟩ := addRef_eq hadd
        refine ⟨_, by rw [href]; exact Function.update_self .., rfl, fun _ _ _ _ hact => ?_⟩
        cases hact
        rfl
      · cases hact
    | cleanup hno _ hmem _ =>
      cases hacts
      rcases hw with ⟨why, n, strong, list, hact⟩ | hact
      · cases hact
      · cases hact
        obtain ⟨R, hR, hp⟩ := (ht.byDesc p r).mp hmem
        obtain ⟨R', hR', hp', -⟩ := ref_stays ht he hR fun act' ⟨k, ok, a', rest', hrun, hk⟩ hrem => by
          subst hrun
          cases Option.some.inj hop
          rw [hi] at hk
          cases hk
          exact hno r hrem
        exact ⟨R', hR', hp'.trans hp, fun _ _ _ _ hact => by cases hact⟩
  · have ho := hw.outer
    rw [(hnew act List.mem_cons_self).1] at ho
    cases ho

theorem exec_offers (h : Locked L s) (hg : Good L s) (he : s.exec L op = some s') {t : Task}
    (ht : t ∈ s'.tasks) (hact : act ∈ t.acts) (hn : act.offers = some n) : .putNode n ∈ t.acts ∧
      ∃ x N, t.actor = .thread x ∧ s'.node n = some N ∧ N.proc = some (L.procOf x) := by
  obtain ⟨j, hj⟩ := List.getElem?_of_mem ht
  -- the node was there for the thread, which is in an ioctl
  have stays {act₀ : Act} {rest₀ : List Act} {x : ThreadId} {N : Node}
      (hi : ⟨t.actor, act₀ :: rest₀⟩ ∈ s.tasks) (hx : t.actor = .thread x) (hN : s.node n = some N)
      (hp : N.proc = some (L.procOf x)) (hput : .putNode n ∈ t.acts) :
      .putNode n ∈ t.acts ∧ ∃ x N, t.actor = .thread x ∧ s'.node n = some N ∧ N.proc = some (L.procOf x) := by
    have hopen := hg.shape.live x _ (hx ▸ hi) (List.cons_ne_nil _ _)
    obtain ⟨N', hN', hp'⟩ := owner_stays hg he hN hp hopen ht hput
    exact ⟨hput, x, N', hx, hN', hp'⟩
  rcases exec_continues he hj with ⟨hold, -⟩ | ⟨-, act₀, rest₀, hi, hc⟩ | hnew
  · have hmem := List.mem_of_getElem? hold
    obtain ⟨hput, x, N, hx, hN, hp⟩ := h.offers t hmem act hact n hn
    obtain ⟨a, acts⟩ := t
    cases acts with
    | nil => cases hact
    | cons act₀ rest₀ => exact stays hmem hx hN hp hput
  · have hmem := List.mem_of_getElem? hi
    have hplain := h.tailPlain hi
    have tail {act' : Act} (hact' : act' ∈ rest₀) (hn : act'.offers = some n) : False := by
      rw [(hplain act' hact').2] at hn
      cases hn
    obtain ⟨a, acts⟩ := t
    cases hc with
    | plain hc =>
      rcases hc act hact with hact | hact
      · exact (tail hact hn).elim
      · rw [hact.2] at hn
        cases hn
    | @newNode x b m o s₁ hinit hnode hact₀ =>
      subst hact₀
      obtain ⟨y, b', target, pre, rfl, hpre, -⟩ := (hg.shape.task _ hmem).inBuild rfl
      cases hpre
      rcases List.mem_cons.mp hact with rfl | hact
      · cases hn
        refine ⟨by simp, x, ?_⟩
        rcases initNode_cases hinit with ⟨N, hget, hN, rfl⟩ | ⟨-, rfl, rfl⟩
        · obtain ⟨N', hN', hp⟩ := hg.links.node (getNode_some hget).1
          rw [hN] at hN'
          cases hN'
          exact ⟨{ N with tmpRefs := N.tmpRefs + 1 }, rfl, by rw [hnode]; exact Function.update_self .., hp⟩
        · exact ⟨.fresh (L.procOf x) o.binder o.cookie, rfl, by rw [hnode]; exact Function.update_self .., rfl⟩
      · rcases List.mem_cons.mp hact with rfl | hact
        · cases hn
        · exact (tail hact hn).elim
    | @found x b target m o hact₀ hget =>
      subst hact₀
      obtain ⟨rfl, -⟩ := (hg.shape.task _ hmem).build
      rcases List.mem_cons.mp hact with rfl | hact
      · cases hn
        obtain ⟨N, hN, hp⟩ := hg.links.node (getNode_some hget).1
        exact stays hmem rfl hN hp (by simp)
      · rcases List.mem_cons.mp hact with rfl | hact
        · cases hn
        rcases List.mem_cons.mp hact with rfl | hact
        · cases hn
        · exact (tail hact hn).elim
    | @offers act' m hact₀ hact' _ =>
      rcases List.mem_cons.mp hact with rfl | hact
      · rw [hn] at hact'
        cases hact'
        obtain ⟨hput, x, N, hx, hN, hp⟩ := h.offers _ hmem act₀ List.mem_cons_self n hact₀
        refine stays hmem hx hN hp ?_
        rcases List.mem_cons.mp hput with rfl | hput
        · cases hact₀
        · exact List.mem_cons_of_mem _ hput
      · exact (tail hact hn).elim
    | @addRef why p m strong list s₁ hact₀ _ hadd _ =>
      subst hact₀
      rcases List.mem_cons.mp hact with rfl | hact
      · cases list with
        | none => cases hn
        | some y =>
          cases hn
          obtain ⟨hput, x, N, hx, hN, hp⟩ := h.offers _ hmem _ List.mem_cons_self n rfl
          refine stays hmem hx hN hp ?_
          rcases List.mem_cons.mp hput with hput | hput
          · cases hput
          · exact List.mem_cons_of_mem _ hput
      · exact (tail hact hn).elim
    | cleanup _ _ _ hc =>
      rcases List.mem_cons.mp hact with rfl | hact
      · cases hn
      · rcases hc act hact with hact | hact
        · exact (tail hact hn).elim
        · rw [hact.2] at hn
          cases hn
  · rw [(hnew act hact).2] at hn
    cases hn

theorem exec_unlisted (h : Locked L s) (hg : Good L s) (hl : Local L s) (he : s.exec L op = some s')
    (hN' : s'.node n = some N') (hp' : N'.proc = none) : N'.work = none := by
  rcases exec_turns hg.tables he hN' with ⟨N, hN, hturn⟩ | ⟨-, p, ptr, cookie, rfl⟩
  swap
  · cases hp'
  have old (hp : N.proc = none) : N.work = none := h.unlisted n N hN hp
  have alive {p : ProcId} (hp : N.proc = some p) (hpn : N.proc = none) : N'.work = none := by
    rw [hp] at hpn
    cases hpn
  have own {i : Nat} {x : ThreadId} {act : Act} {rest : List Act}
      (hi : s.tasks[i]? = some ⟨.thread x, act :: rest⟩) (hown : act.own = some n)
      (hpn : N.proc = none) : N'.work = none := by
    obtain ⟨K, hK, hKp⟩ := hl.own _ (List.mem_of_getElem? hi) x rfl act List.mem_cons_self n hown
    rw [hN] at hK
    cases hK
    exact alive hKp hpn
  cases hturn with
  | same | take | addRef => exact old hp'
  | transaction hp => exact alive hp hp'
  | translateOwn hp =>
    rw [Node.bump_proc] at hp'
    exact alive hp hp'
  | @inc i _ strong list a act rest r R _ hok hi hr hR hn =>
    obtain ⟨w, hinc, hw⟩ := Node.inc_succeeds hok
    rw [hinc] at hp' ⊢
    have hpn : N.proc = none := by rwa [Node.bump_proc] at hp'
    rcases hw with rfl | ⟨x, rfl, -⟩
    · exact old hpn
    · -- the thread that sends the node has it
      exfalso
      have offered (hoff : act.offers = some n) : False := by
        obtain ⟨-, y, K, -, hK, hKp⟩ :=
          h.offers _ (List.mem_of_getElem? hi) act List.mem_cons_self n hoff
        rw [hN] at hK
        cases hK
        rw [hpn] at hKp
        cases hKp
      cases hr with
      | found hact hget =>
        obtain ⟨K, hK, -, hKn⟩ := getRefForNode_some hg.tables hget
        rw [hR] at hK
        cases hK
        rcases hact with rfl | rfl <;> exact offered (congrArg some (hKn.symm.trans hn))
      | @new why p m =>
        obtain ⟨K, hK, -, hKn⟩ := h.held i a _ rest p r hi (.inl ⟨why, m, strong, _, rfl⟩)
        rw [hR] at hK
        cases hK
        exact offered (congrArg some ((hKn why m strong _ rfl).symm.trans hn))
      | update _ hlist => cases hlist
  | decNode | decRef | putNode =>
    rw [Node.dec_proc] at hp'
    exact Node.dec_unlisted hp' (old hp') _ _
  | @cleanupRef _ _ r R w _ _ _ hw _ =>
    have hproc : (N.unref r (R.strong != 0) w).proc = N.proc := by simp [Node.unref]
    rw [Node.dec_proc] at hp'
    refine Node.dec_unlisted hp' ?_ _ _
    rw [hproc] at hp'
    have hwork : w = none := by
      rw [hw]
      split
      · exact old hp'
      · exact Node.dec_unlisted hp' (old hp') true true
    exact hwork
  | @done _ _ _ strong _ _ _ hi =>
    have hproc : (N.clearPending strong).proc = N.proc := by cases strong <;> rfl
    rw [Node.dec_proc, hproc] at hp'
    obtain ⟨x, rfl, -⟩ := (hg.shape.task _ (List.mem_of_getElem? hi)).ofDone
    exact own hi rfl hp'
  | readNode hp => exact alive hp hp'
  | becomeMgr => exact old hp'
  | dropWork | nodeRelease => rfl

theorem exec (h : Locked L s) (hg : Good L s) (hl : Local L s) (he : s.exec L op = some s') :
    Locked L s' where
  head := h.exec_head he
  excl _ _ _ hi hj := h.exec_excl he hi hj
  held _ _ _ _ _ _ hj hw := h.exec_held hg.tables he hj hw
  offers _ ht _ hact _ hn := h.exec_offers hg he ht hact hn
  unlisted _ _ hN hp := h.exec_unlisted hg hl he hN hp

end Locked

theorem locked_of_reach (h : (refSys L).Reach s) : Good L s ∧ Local L s ∧ Locked L s :=
  Sys.Reach.inv (I := fun s => Good L s ∧ Local L s ∧ Locked L s)
    (by rintro _ rfl; exact ⟨good_start, local_start, .start⟩)
    (fun _ _ _ hi he => ⟨hi.1.exec he, hi.2.1.exec hi.1 he, hi.2.2.exec hi.1 hi.2.1 he⟩) h

end Redroid.Binder.Refs
