import Redroid.Binder.Death

/-!
# Every death notification is delivered once

* `Owner`: who frees a death: the reference it is attached to, the task that deletes that reference,
  or whoever takes it off its list.
* `Ok`: for each owner, where the death is and what has happened to its request.
* `Inv`: every death has one owner, and is as `Ok` says; every step keeps it (`Inv.exec`).
* `deaths_sound`: what this means for a request, in every run.
-/

namespace Redroid.Binder.Death

open DeathState

/-- Who frees a death. -/
inductive Owner where
  | nobody
  | ref (r : RefId)
  | cleaning (p : ProcId)
  | freeing
  | list
  | freed
  deriving DecidableEq, Repr

/-- `binder_node_release` still has to go to the reference `r` of the node `n`. -/
def Pending (s : DeathState) (n : NodeId) (r : RefId) : Prop := ∃ rs, s.notify n = some rs ∧ r ∈ rs

/-- The lists of the process `p`. -/
def OfProc (p : ProcId) (l : DeathList) : Prop := l = .todo p ∨ l = .delivered p

/-- The lists of the process `p` and its threads on which there is something left to read. -/
def ForProc (L : Layout) (p : ProcId) : DeathList → Prop
  | .todo q => q = p
  | .thread x => L.procOf x = p
  | .delivered _ => False

/-- `BR_DEAD_BINDER` is queued once if the node has died. -/
def Log.Told (l : Log) : Prop := l.deadBinder = l.died.toNat

/-- Nothing but `BR_DEAD_BINDER` has been done for the request. -/
structure Log.Untouched (l : Log) : Prop where
  clear : l.clear = 0
  clearDone : l.clearDone = 0
  freed : l.freed = 0

/-- The death `d` is on no list, or it is queued or delivered as `BINDER_WORK_DEAD_BINDER` in `p`. -/
def Queued (D : RefDeath) (p : ProcId) : Prop :=
  D.list = none ∨ D.type = .deadBinder ∧ ∃ l, D.list = some l ∧ OfProc p l

/-- A cleared death waits for `BC_DEAD_BINDER_DONE`. -/
def Waiting (D : RefDeath) (p : ProcId) : Prop :=
  D.type = .deadBinderAndClear ∧ ∃ l, D.list = some l ∧ OfProc p l

/-- The death `d` of the owner `o`. -/
def Ok (L : Layout) (s : DeathState) (d : DeathId) : Owner → Prop
  | .nobody => s.nextDeath ≤ d ∧ s.death d = none
  | .ref r => ∃ R D, s.ref r = some R ∧ R.death = some d ∧ s.death d = some D ∧
      (s.log d).Untouched ∧ (s.log d).proc = R.proc ∧ (s.log d).died = s.dead R.node ∧
      (s.dead R.node = true ∧ ¬ Pending s R.node r → (s.log d).deadBinder = 1 ∧ Queued D R.proc) ∧
      (s.dead R.node = false ∨ Pending s R.node r → (s.log d).deadBinder = 0 ∧ D.list = none)
  | .cleaning p => ∃ D, s.death d = some D ∧ Queued D p ∧ (s.log d).proc = p ∧
      (s.log d).Told ∧ (s.log d).Untouched
  | .freeing => ∃ D, s.death d = some D ∧ D.list = none ∧ (s.log d).Told ∧ (s.log d).Untouched
  | .list => ∃ D, s.death d = some D ∧ (s.log d).Told ∧ (s.log d).clear = 1 ∧ (s.log d).freed = 0 ∧
      ((Waiting D (s.log d).proc ∧ (s.log d).clearDone = 0 ∧ (s.log d).died = true) ∨
        (D.type = .clearDeathNotification ∧ (s.log d).clearDone = 1 ∧
          ∃ l, D.list = some l ∧ ForProc L (s.log d).proc l))
  | .freed => d < s.nextDeath ∧ s.death d = none ∧ (s.log d).Told ∧ (s.log d).freed = 1 ∧
      ((s.log d).clear = 0 ∧ (s.log d).clearDone = 0 ∨ (s.log d).clear = 1 ∧
        ((s.log d).clearDone = 1 ∨ (s.log d).clearDone = 0 ∧ s.released (s.log d).proc = true))

/-- The owners `o` are those that the state says. -/
structure Owns (s : DeathState) (o : DeathId → Owner) : Prop where
  ref : ∀ {r R d}, s.ref r = some R → R.death = some d → o d = .ref r
  cleaning : ∀ {p d}, s.cleaning p = some d ↔ o d = .cleaning p
  freeing : ∀ {d}, d ∈ s.freeing ↔ o d = .freeing
  nodup : s.freeing.Nodup
  fresh : ∀ {d}, s.nextDeath ≤ d → o d = .nobody

/-- The tables of the references. -/
structure Tables (s : DeathState) : Prop where
  refs : ∀ {r R}, s.ref r = some R → r ∈ s.refs R.proc
  nodeRefs : ∀ {r R}, s.ref r = some R → r ∈ s.nodeRefs R.node
  ofNode : ∀ {n r}, r ∈ s.nodeRefs n → ∃ R, s.ref r = some R ∧ R.node = n
  nodup : ∀ n, (s.nodeRefs n).Nodup
  notify : ∀ {n rs}, s.notify n = some rs → s.dead n = true ∧ rs.Sublist (s.nodeRefs n)
  released : ∀ {p}, s.released p = true → s.closed p = true ∧ s.cleaning p = none ∧
    ∀ {r R}, s.ref r = some R → R.proc = p → R.death = none

/-- Every death has one owner, and is as that owner needs it. -/
def Inv (L : Layout) (s : DeathState) : Prop := Tables s ∧ ∃ o, Owns s o ∧ ∀ d, Ok L s d (o d)

variable {L : Layout} {s s' : DeathState} {o : DeathId → Owner} {d e : DeathId} {D : RefDeath}
  {r : RefId} {R : Ref} {n : NodeId} {p : ProcId} {x : ThreadId} {l : DeathList} {op : DeathOp}

/-! ## What does not change -/

/-- A step that does not touch the death `d` and its reference keeps it as it is. -/
theorem Ok.frame {w : Owner} (h : Ok L s d w) (hdeath : s'.death d = s.death d)
    (hlog : s'.log d = s.log d) (hnext : s.nextDeath ≤ s'.nextDeath)
    (hnobody : w = .nobody → s'.nextDeath ≤ d)
    (hrel : ∀ p, s.released p = true → s'.released p = true)
    (href : ∀ r R, w = .ref r → s.ref r = some R → s'.ref r = some R ∧
      s'.dead R.node = s.dead R.node ∧ (Pending s' R.node r ↔ Pending s R.node r)) :
    Ok L s' d w := by
  cases w with
  | nobody => exact ⟨hnobody rfl, hdeath.trans h.2⟩
  | ref r =>
    obtain ⟨R, D, hR, hd, hD, h₁, h₂, h₃, h₄, h₅⟩ := h
    obtain ⟨hR', hdead, hpend⟩ := href r R rfl hR
    refine ⟨R, D, hR', hd, hdeath.trans hD, ?_⟩
    rw [hlog, hdead, hpend]
    exact ⟨h₁, h₂, h₃, h₄, h₅⟩
  | cleaning p =>
    obtain ⟨D, hD, h⟩ := h
    exact ⟨D, hdeath.trans hD, by rwa [hlog]⟩
  | freeing =>
    obtain ⟨D, hD, h⟩ := h
    exact ⟨D, hdeath.trans hD, by rwa [hlog]⟩
  | list =>
    obtain ⟨D, hD, h⟩ := h
    exact ⟨D, hdeath.trans hD, by rwa [hlog]⟩
  | freed =>
    obtain ⟨h₁, h₂, h₃, h₄, h₅⟩ := h
    refine ⟨Nat.lt_of_lt_of_le h₁ hnext, hdeath.trans h₂, ?_⟩
    rw [hlog]
    refine ⟨h₃, h₄, h₅.imp_right fun h => ⟨h.1, h.2.imp_right fun h => ⟨h.1, hrel _ h.2⟩⟩⟩

/-- The references, the nodes, and what `binder_node_release` has to do are the same. -/
structure SameRefs (s s' : DeathState) : Prop where
  ref : s'.ref = s.ref
  refs : s'.refs = s.refs
  nodeRefs : s'.nodeRefs = s.nodeRefs
  dead : s'.dead = s.dead
  notify : s'.notify = s.notify
  closed : s'.closed = s.closed
  released : s'.released = s.released

theorem Tables.same (h : Tables s) (hs : SameRefs s s')
    (hc : ∀ p, s.cleaning p = none → s'.cleaning p = none) : Tables s' where
  refs hR := by rw [hs.ref] at hR; rw [hs.refs]; exact h.refs hR
  nodeRefs hR := by rw [hs.ref] at hR; rw [hs.nodeRefs]; exact h.nodeRefs hR
  ofNode hr := by rw [hs.nodeRefs] at hr; rw [hs.ref]; exact h.ofNode hr
  nodup n := by rw [hs.nodeRefs]; exact h.nodup n
  notify hn := by rw [hs.notify] at hn; rw [hs.dead, hs.nodeRefs]; exact h.notify hn
  released hp := by
    rw [hs.released] at hp
    rw [hs.closed, hs.ref]
    obtain ⟨h₁, h₂, h₃⟩ := h.released hp
    exact ⟨h₁, hc _ h₂, h₃⟩

/-- The owner of `d` changes to `w`, and no other one. -/
theorem Owns.update (h : Owns s o) (w : Owner)
    (href : ∀ {r R e}, s'.ref r = some R → R.death = some e → e ≠ d →
      ∃ R₀, s.ref r = some R₀ ∧ R₀.death = some e)
    (hrefd : ∀ {r R}, s'.ref r = some R → R.death = some d → w = .ref r)
    (hclean : ∀ {p e}, e ≠ d → (s'.cleaning p = some e ↔ s.cleaning p = some e))
    (hcleand : ∀ {p}, s'.cleaning p = some d ↔ w = .cleaning p)
    (hfree : ∀ {e}, e ≠ d → (e ∈ s'.freeing ↔ e ∈ s.freeing))
    (hfreed : d ∈ s'.freeing ↔ w = .freeing) (hnodup : s'.freeing.Nodup)
    (hnext : s.nextDeath ≤ s'.nextDeath) (hlt : d < s'.nextDeath) :
    Owns s' (Function.update o d w) where
  ref {r R e} hR he := by
    by_cases hed : e = d
    · subst hed
      rw [Function.update_self]
      exact hrefd hR he
    · obtain ⟨R₀, hR₀, he₀⟩ := href hR he hed
      rw [Function.update_of_ne hed]
      exact h.ref hR₀ he₀
  cleaning {p e} := by
    by_cases hed : e = d
    · subst hed
      rw [Function.update_self]
      exact hcleand
    · rw [Function.update_of_ne hed, hclean hed]
      exact h.cleaning
  freeing {e} := by
    by_cases hed : e = d
    · subst hed
      rw [Function.update_self]
      exact hfreed
    · rw [Function.update_of_ne hed, hfree hed]
      exact h.freeing
  nodup := hnodup
  fresh {e} he := by
    have hed : e ≠ d := by
      rintro rfl
      exact absurd hlt (Nat.not_lt.mpr he)
    rw [Function.update_of_ne hed]
    exact h.fresh (Nat.le_trans hnext he)

/-- The same owners. -/
theorem Owns.same (h : Owns s o) (href : s'.ref = s.ref) (hclean : s'.cleaning = s.cleaning)
    (hfree : s'.freeing = s.freeing) (hnext : s'.nextDeath = s.nextDeath) : Owns s' o where
  ref hR := by rw [href] at hR; exact h.ref hR
  cleaning := by rw [hclean]; exact h.cleaning
  freeing := by rw [hfree]; exact h.freeing
  nodup := by rw [hfree]; exact h.nodup
  fresh := by rw [hnext]; exact h.fresh

/-- A step with one death, all references as before. -/
theorem Inv.one (ht : Tables s) (hok : ∀ e, e ≠ d → Ok L s e (o e)) (hs : SameRefs s s')
    (hc : ∀ p, s.cleaning p = none → s'.cleaning p = none) (hnext : s'.nextDeath = s.nextDeath)
    (hdeath : ∀ e, e ≠ d → s'.death e = s.death e) (hlog : ∀ e, e ≠ d → s'.log e = s.log e)
    (w : Owner) (hown : Owns s' (Function.update o d w)) (hd : Ok L s' d w) : Inv L s' := by
  refine ⟨ht.same hs hc, _, hown, fun e => ?_⟩
  by_cases he : e = d
  · subst he
    rwa [Function.update_self]
  · rw [Function.update_of_ne he]
    refine (hok e he).frame (hdeath e he) (hlog e he) (Nat.le_of_eq hnext.symm) (fun ho => ?_) (fun p hp => by
      rwa [hs.released]) fun r R _ hR => ?_
    · have := hok e he
      rw [ho] at this
      rw [hnext]
      exact this.1
    · refine ⟨by rwa [hs.ref], by rw [hs.dead], ?_⟩
      simp only [Pending, hs.notify]

theorem enqueue_eq (h : s.enqueue d D l = some s') :
    D.list = none ∧ s' = s.setDeath d { D with list := some l } := by
  obtain ⟨h₁, h₂⟩ := guard_bind h
  cases h₂
  exact ⟨h₁, rfl⟩

theorem queueDead_eq (h : s.queueDead d p = some s') : ∃ D, s.death d = some D ∧ D.list = none ∧
    s' = (s.setDeath d { D with type := .deadBinder, list := some (.todo p) }).setLog d
      { s.log d with deadBinder := (s.log d).deadBinder + 1 } := by
  obtain ⟨D, hD, h⟩ := Option.bind_eq_some_iff.mp h
  obtain ⟨s₁, hs₁, h⟩ := Option.bind_eq_some_iff.mp h
  obtain ⟨hl, rfl⟩ := enqueue_eq hs₁
  cases h
  exact ⟨D, hD, hl, rfl⟩

theorem queueClear_eq {looper : Bool} (h : s.queueClear L d D x looper = some s') :
    D.list = none ∧ ∃ l, ForProc L (L.procOf x) l ∧
      s' = (s.setDeath d { D with type := .clearDeathNotification, list := some l }).setLog d
        { s.log d with clearDone := (s.log d).clearDone + 1 } := by
  obtain ⟨s₁, hs₁, h⟩ := Option.bind_eq_some_iff.mp h
  obtain ⟨hl, rfl⟩ := enqueue_eq hs₁
  cases h
  refine ⟨hl, _, ?_, rfl⟩
  split
  · exact rfl
  · exact rfl

/-! ## One death -/

/-- A death on a list: it is queued for its reference, or cleared. -/
theorem Ok.onList {w : Owner} (h : Ok L s d w) (hD : s.death d = some D) (hl : D.list = some l) :
    (D.type = .deadBinder ∧ ((∃ r R, w = .ref r ∧ s.ref r = some R ∧ R.death = some d ∧
        OfProc R.proc l) ∨ ∃ p, w = .cleaning p ∧ OfProc p l)) ∨
      (w = .list ∧ (D.type = .deadBinderAndClear ∧ OfProc (s.log d).proc l ∨
        D.type = .clearDeathNotification ∧ ForProc L (s.log d).proc l)) := by
  have hqueued {p : ProcId} (hq : Queued D p) : D.type = .deadBinder ∧ OfProc p l := by
    rcases hq with hq | ⟨ht, l', hl', hp⟩
    · rw [hl] at hq
      cases hq
    · rw [hl] at hl'
      cases hl'
      exact ⟨ht, hp⟩
  cases w with
  | nobody =>
    have := h.2
    rw [hD] at this
    cases this
  | ref r =>
    obtain ⟨R, D', hR, hd, hD', -, -, -, h₄, h₅⟩ := h
    rw [hD] at hD'
    cases hD'
    by_cases hc : s.dead R.node = true ∧ ¬ Pending s R.node r
    · obtain ⟨ht, hp⟩ := hqueued (h₄ hc).2
      exact .inl ⟨ht, .inl ⟨r, R, rfl, hR, hd, hp⟩⟩
    · have hnone := (h₅ (by
        by_cases hdead : s.dead R.node = true
        · exact .inr (Classical.not_not.mp fun hp => hc ⟨hdead, hp⟩)
        · exact .inl (by simpa using hdead))).2
      rw [hl] at hnone
      cases hnone
  | cleaning p =>
    obtain ⟨D', hD', hq, -⟩ := h
    rw [hD] at hD'
    cases hD'
    obtain ⟨ht, hp⟩ := hqueued hq
    exact .inl ⟨ht, .inr ⟨p, rfl, hp⟩⟩
  | freeing =>
    obtain ⟨D', hD', hnone, -⟩ := h
    rw [hD] at hD'
    cases hD'
    rw [hl] at hnone
    cases hnone
  | list =>
    obtain ⟨D', hD', -, -, -, ⟨⟨ht, l', hl', hp⟩, -⟩ | ⟨ht, -, l', hl', hp⟩⟩ := h
    · rw [hD] at hD'
      cases hD'
      rw [hl] at hl'
      cases hl'
      exact .inr ⟨rfl, .inl ⟨ht, hp⟩⟩
    · rw [hD] at hD'
      cases hD'
      rw [hl] at hl'
      cases hl'
      exact .inr ⟨rfl, .inr ⟨ht, hp⟩⟩
  | freed =>
    have := h.2.1
    rw [hD] at this
    cases this

/-- A death that is not a `BINDER_WORK_CLEAR_DEATH_NOTIFICATION` goes to another list of its process,
or off its list if it is not cleared. -/
theorem Ok.moveList {w : Owner} (h : Ok L s d w) (hD : s.death d = some D) (hl : D.list = some l)
    (ht : D.type ≠ .clearDeathNotification) {m : Option DeathList}
    (hm : m = none ∧ D.type ≠ .deadBinderAndClear ∨ ∃ l', m = some l' ∧ ∀ p, OfProc p l → OfProc p l') :
    Ok L (s.setDeath d { D with list := m }) d w := by
  have hnew : (s.setDeath d { D with list := m }).death d = some { D with list := m } := by
    simp [DeathState.setDeath]
  have hqueued {p : ProcId} (hp : OfProc p l) (htype : D.type = .deadBinder) :
      Queued { D with list := m } p := by
    rcases hm with ⟨rfl, -⟩ | ⟨l', rfl, hm⟩
    · exact .inl rfl
    · exact .inr ⟨htype, l', rfl, hm p hp⟩
  have hdead : D.type = .deadBinder → ∀ {q}, Queued D q → Queued { D with list := m } q := by
    intro htype q hq
    rcases hq with hq | ⟨-, l', hl', hp⟩
    · rw [hl] at hq
      cases hq
    · rw [hl] at hl'
      cases hl'
      exact hqueued hp htype
  rcases h.onList hD hl with ⟨htype, ⟨r, R, rfl, -, -, hp⟩ | ⟨p, rfl, hp⟩⟩ | ⟨rfl, hcase⟩
  · obtain ⟨R', D', hR', hd, hD', h₁, h₂, h₃, h₄, h₅⟩ := h
    rw [hD] at hD'
    cases hD'
    refine ⟨R', _, hR', hd, hnew, h₁, h₂, h₃, fun hc => ⟨(h₄ hc).1, hdead htype (h₄ hc).2⟩, fun hc => ?_⟩
    have := (h₅ hc).2
    rw [hl] at this
    cases this
  · obtain ⟨D', hD', hq, h₁, h₂, h₃⟩ := h
    rw [hD] at hD'
    cases hD'
    exact ⟨_, hnew, hdead htype hq, h₁, h₂, h₃⟩
  · obtain ⟨D', hD', h₁, h₂, h₃, ⟨⟨ht', l₁, hl₁, hp⟩, h₄⟩ | ⟨ht', -⟩⟩ := h
    · rw [hD] at hD'
      cases hD'
      rw [hl] at hl₁
      cases hl₁
      rcases hm with ⟨-, hne⟩ | ⟨l', rfl, hm⟩
      · exact absurd ht' hne
      · exact ⟨_, hnew, h₁, h₂, h₃, .inl ⟨⟨ht', l', rfl, hm _ hp⟩, h₄⟩⟩
    · rw [hD] at hD'
      cases hD'
      exact absurd ht' ht

/-! ## Every step -/

theorem mem_update_cons {f : Nat → List RefId} {i j : Nat} {r' : RefId} (h : r' ∈ f i) :
    r' ∈ Function.update f j (r :: f j) i := by
  by_cases hij : i = j
  · subst hij
    rw [Function.update_self]
    exact List.mem_cons_of_mem _ h
  · rwa [Function.update_of_ne hij]

/-- The tables after a reference has changed its death. -/
theorem Tables.setRef (h : Tables s) (hR : s.ref r = some R) (R' : Ref) (hp : R'.proc = R.proc)
    (hn : R'.node = R.node) (hrel : s.released R.proc = true → R'.death = none) :
    Tables (s.setRef r R') := by
  have hcase {r' : RefId} {Q : Ref} (hQ : (s.setRef r R').ref r' = some Q) :
      ∃ Q₀, s.ref r' = some Q₀ ∧ Q.proc = Q₀.proc ∧ Q.node = Q₀.node ∧ (Q = R' ∧ r' = r ∨ Q = Q₀) := by
    by_cases hr : r' = r
    · subst hr
      simp only [DeathState.setRef, Function.update_self, Option.some.injEq] at hQ
      subst hQ
      exact ⟨R, hR, hp, hn, .inl ⟨rfl, rfl⟩⟩
    · simp only [DeathState.setRef, Function.update_of_ne hr] at hQ
      exact ⟨Q, hQ, rfl, rfl, .inr rfl⟩
  refine ⟨?_, ?_, ?_, h.nodup, h.notify, ?_⟩
  · intro r' Q hQ
    obtain ⟨Q₀, hQ₀, hp, -⟩ := hcase hQ
    rw [hp]
    exact h.refs hQ₀
  · intro r' Q hQ
    obtain ⟨Q₀, hQ₀, -, hn, -⟩ := hcase hQ
    rw [hn]
    exact h.nodeRefs hQ₀
  · intro m r' hr'
    obtain ⟨Q, hQ, hm⟩ := h.ofNode hr'
    by_cases hr : r' = r
    · subst hr
      rw [hR] at hQ
      cases hQ
      exact ⟨R', Function.update_self .., hn.trans hm⟩
    · exact ⟨Q, by rw [← hQ]; exact Function.update_of_ne hr .., hm⟩
  · intro q hq
    obtain ⟨h₁, h₂, h₃⟩ := h.released hq
    refine ⟨h₁, h₂, fun {r' Q} hQ hp' => ?_⟩
    obtain ⟨Q₀, hQ₀, hpq, -, ⟨rfl, rfl⟩ | rfl⟩ := hcase hQ
    · refine hrel ?_
      rw [← hp, hp']
      exact hq
    · exact h₃ hQ₀ hp'

theorem Inv.newRef (h : Inv L s) (he : s.exec L (.newRef r p n) = some s') : Inv L s' := by
  obtain ⟨ht, o, ho, hok⟩ := h
  obtain ⟨⟨hr, hn⟩, he⟩ := guard_bind he
  cases he
  have hnew {r' : RefId} {R : Ref} (hR : s.ref r' = some R) : r' ≠ r := by
    rintro rfl
    rw [hr] at hR
    cases hR
  have hcase {r' : RefId} {R : Ref} (hR : Function.update s.ref r (some ⟨p, n, none⟩) r' = some R) :
      r' = r ∧ R = ⟨p, n, none⟩ ∨ r' ≠ r ∧ s.ref r' = some R := by
    by_cases hrr : r' = r
    · subst hrr
      rw [Function.update_self] at hR
      exact .inl ⟨rfl, (Option.some.inj hR).symm⟩
    · rw [Function.update_of_ne hrr] at hR
      exact .inr ⟨hrr, hR⟩
  refine ⟨⟨?_, ?_, ?_, ?_, ?_, ?_⟩, o, ⟨?_, ho.cleaning, ho.freeing, ho.nodup, ho.fresh⟩, fun e => ?_⟩
  · intro r' R hR
    rcases hcase hR with ⟨rfl, rfl⟩ | ⟨-, hR⟩
    · simp
    · exact mem_update_cons (ht.refs hR)
  · intro r' R hR
    rcases hcase hR with ⟨rfl, rfl⟩ | ⟨-, hR⟩
    · simp
    · exact mem_update_cons (ht.nodeRefs hR)
  · intro m r' hr'
    have hold (hm : r' ∈ s.nodeRefs m) : ∃ R, Function.update s.ref r (some ⟨p, n, none⟩) r' = some R ∧
        R.node = m := by
      obtain ⟨R, hR, hRm⟩ := ht.ofNode hm
      exact ⟨R, by rwa [Function.update_of_ne (hnew hR)], hRm⟩
    by_cases hm : m = n
    · subst hm
      simp only [Function.update_self, List.mem_cons] at hr'
      rcases hr' with rfl | hr'
      · exact ⟨_, Function.update_self .., rfl⟩
      · exact hold hr'
    · simp only [Function.update_of_ne hm] at hr'
      exact hold hr'
  · intro m
    by_cases hm : m = n
    · subst hm
      simp only [Function.update_self, List.nodup_cons]
      refine ⟨fun hmem => ?_, ht.nodup m⟩
      obtain ⟨R, hR, -⟩ := ht.ofNode hmem
      exact hnew hR rfl
    · simp only [Function.update_of_ne hm]
      exact ht.nodup m
  · intro m rs hm
    obtain ⟨h₁, h₂⟩ := ht.notify hm
    refine ⟨h₁, ?_⟩
    have hne : m ≠ n := by
      rintro rfl
      exact Option.some_ne_none _ (hm.symm.trans hn)
    simpa only [Function.update_of_ne hne] using h₂
  · intro q hq
    obtain ⟨h₁, h₂, h₃⟩ := ht.released hq
    refine ⟨h₁, h₂, fun {r' R} hR hp => ?_⟩
    rcases hcase hR with ⟨rfl, rfl⟩ | ⟨-, hR⟩
    · rfl
    · exact h₃ hR hp
  · intro r' R e hR he
    rcases hcase hR with ⟨rfl, rfl⟩ | ⟨-, hR⟩
    · cases he
    · exact ho.ref hR he
  · refine (hok e).frame rfl rfl (Nat.le_refl _) (fun hn => ?_) (fun _ h => h) fun r' R _ hR => ?_
    · have := hok e
      rw [hn] at this
      exact this.1
    · exact ⟨by rw [← hR]; exact Function.update_of_ne (hnew hR) .., rfl, Iff.rfl⟩

/-- The owner of the death of a reference, and the death. -/
theorem Owns.attached (h : Owns s o) (hok : ∀ e, Ok L s e (o e)) (hR : s.ref r = some R)
    (hd : R.death = some d) : ∃ D, s.death d = some D ∧ (s.log d).Untouched ∧
      (s.log d).proc = R.proc ∧ (s.log d).died = s.dead R.node ∧
      (s.dead R.node = true ∧ ¬ Pending s R.node r → (s.log d).deadBinder = 1 ∧ Queued D R.proc) ∧
      (s.dead R.node = false ∨ Pending s R.node r → (s.log d).deadBinder = 0 ∧ D.list = none) := by
  have he := hok d
  rw [h.ref hR hd] at he
  obtain ⟨R', D, hR', -, hD, he⟩ := he
  rw [hR] at hR'
  cases hR'
  exact ⟨D, hD, he⟩

/-- The other deaths, after the reference `r` has lost or got `d`. -/
theorem Ok.setRef {w : Owner} (h : Ok L s e w) (hr : w ≠ .ref r) (hdeath : s'.death e = s.death e)
    (hlog : s'.log e = s.log e) (href : s'.ref = Function.update s.ref r R')
    (hdead : s'.dead = s.dead) (hnot : s'.notify = s.notify) (hrel : s'.released = s.released)
    (hnext : s.nextDeath ≤ s'.nextDeath) (hnobody : w = .nobody → s'.nextDeath ≤ e) : Ok L s' e w := by
  refine h.frame hdeath hlog hnext hnobody (fun p hp => by rwa [hrel]) fun q Q hw hQ => ?_
  have hq : q ≠ r := by
    rintro rfl
    exact hr hw
  exact ⟨by rw [href, Function.update_of_ne hq, hQ], by rw [hdead], by simp only [Pending, hnot]⟩

theorem Inv.request {cookie : Nat} (h : Inv L s) (he : s.exec L (.request x r cookie) = some s') :
    Inv L s' := by
  obtain ⟨ht, o, ho, hok⟩ := h
  obtain ⟨hlive, he⟩ := guard_bind he
  obtain ⟨R, hR, he⟩ := Option.bind_eq_some_iff.mp he
  obtain ⟨⟨hp, -, hn⟩, he⟩ := guard_bind he
  obtain ⟨hnone, he⟩ := guard_bind he
  have hrel : s.released R.proc = false := by
    by_contra hrel
    have hc := (ht.released (by simpa using hrel)).1
    simp only [DeathState.live, ← hp, hc, Bool.not_true, Bool.and_false] at hlive
    cases hlive
  have hpend : ¬ Pending s R.node r := by
    rintro ⟨rs, hrs, -⟩
    rw [hn] at hrs
    cases hrs
  have hfresh : o s.nextDeath = .nobody := ho.fresh (Nat.le_refl _)
  have htab : Tables (s.attach r R cookie) := by
    have := ht.setRef hR { R with death := some s.nextDeath } rfl rfl
      (by rw [hrel]; exact fun h => nomatch h)
    exact ⟨this.refs, this.nodeRefs, this.ofNode, this.nodup, this.notify, this.released⟩
  have hown : Owns (s.attach r R cookie) (Function.update o s.nextDeath (.ref r)) := by
    refine ho.update _ ?_ ?_ ?_ ?_ ?_ ?_ ho.nodup (Nat.le_succ _) (Nat.lt_succ_self _)
    · intro r' Q e hQ hdeath hne
      by_cases hr : r' = r
      · subst hr
        simp only [DeathState.attach, Function.update_self, Option.some.injEq] at hQ
        subst hQ
        exact absurd (Option.some.inj hdeath).symm hne
      · simp only [DeathState.attach, Function.update_of_ne hr] at hQ
        exact ⟨Q, hQ, hdeath⟩
    · intro r' Q hQ hdeath
      by_cases hr : r' = r
      · rw [hr]
      · simp only [DeathState.attach, Function.update_of_ne hr] at hQ
        have := ho.ref hQ hdeath
        rw [hfresh] at this
        cases this
    · exact fun _ => Iff.rfl
    · refine ⟨fun hc => ?_, fun hc => by cases hc⟩
      have := ho.cleaning.mp hc
      rw [hfresh] at this
      cases this
    · exact fun _ => Iff.rfl
    · refine ⟨fun hf => ?_, fun hc => by cases hc⟩
      have := ho.freeing.mp hf
      rw [hfresh] at this
      cases this
  have hother (e : DeathId) (hne : e ≠ s.nextDeath) : Ok L (s.attach r R cookie) e (o e) := by
    refine (hok e).setRef (r := r) (fun hoe => ?_) (Function.update_of_ne hne ..)
      (Function.update_of_ne hne ..) rfl rfl rfl rfl (Nat.le_succ _) fun hoe => ?_
    · have hoke := hok e
      rw [hoe] at hoke
      obtain ⟨R', -, hR', hd, -⟩ := hoke
      rw [hR] at hR'
      cases hR'
      rw [hnone] at hd
      cases hd
    · have hoke := hok e
      rw [hoe] at hoke
      exact Nat.lt_of_le_of_ne hoke.1 (Ne.symm hne)
  have hone {s₁ : DeathState} {D : RefDeath} {k : Nat} (hs : SameRefs (s.attach r R cookie) s₁)
      (hc : s₁.cleaning = s.cleaning) (hf : s₁.freeing = s.freeing)
      (hn : s₁.nextDeath = s.nextDeath + 1) (hD : s₁.death s.nextDeath = some D)
      (hl : s₁.log s.nextDeath = ⟨R.proc, s.dead R.node, k, 0, 0, 0⟩)
      (hdeath : ∀ e, e ≠ s.nextDeath → s₁.death e = (s.attach r R cookie).death e)
      (hlog : ∀ e, e ≠ s.nextDeath → s₁.log e = (s.attach r R cookie).log e)
      (hk : s.dead R.node = true ∧ k = 1 ∧ Queued D R.proc ∨
        s.dead R.node = false ∧ k = 0 ∧ D.list = none) : Inv L s₁ := by
    refine .one htab (d := s.nextDeath) (o := o) hother hs (fun p h => by rw [hc]; exact h) hn hdeath
      hlog (.ref r) (hown.same hs.ref hc hf hn) ?_
    refine ⟨_, D, (congrFun hs.ref r).trans (Function.update_self ..), rfl, hD, ?_⟩
    have hpend' : ¬ Pending s₁ R.node r := by
      rintro ⟨rs, hrs, hmem⟩
      exact hpend ⟨rs, by rwa [show s₁.notify = s.notify from hs.notify] at hrs, hmem⟩
    rw [hl, show s₁.dead = s.dead from hs.dead]
    refine ⟨⟨rfl, rfl, rfl⟩, rfl, rfl, fun hdead => ?_, fun hdead => ?_⟩
    · rcases hk with ⟨-, hk⟩ | ⟨hk, -⟩
      · exact hk
      · rw [hk] at hdead
        cases hdead.1
    · rcases hk with ⟨hk, -⟩ | ⟨-, hk⟩
      · rcases hdead with hdead | hdead
        · rw [hk] at hdead
          cases hdead
        · exact absurd hdead hpend'
      · exact hk
  split at he
  · rename_i hdead
    obtain ⟨D, hD, -, rfl⟩ := queueDead_eq he
    refine hone ⟨rfl, rfl, rfl, rfl, rfl, rfl, rfl⟩ rfl rfl rfl (Function.update_self ..)
      (k := 1) ?_ (fun e hne => Function.update_of_ne hne ..) (fun e hne => Function.update_of_ne hne ..)
      (.inl ⟨hdead, rfl, .inr ⟨rfl, _, rfl, .inl rfl⟩⟩)
    simp [DeathState.setLog, DeathState.setDeath, DeathState.attach]
  · rename_i hdead
    cases he
    exact hone ⟨rfl, rfl, rfl, rfl, rfl, rfl, rfl⟩ rfl rfl rfl (Function.update_self ..)
      (Function.update_self ..) (fun _ _ => rfl) (fun _ _ => rfl)
      (.inr ⟨by simpa using hdead, rfl, rfl⟩)

theorem Owns.lt (ho : Owns s o) (h : o d ≠ .nobody) : d < s.nextDeath :=
  Nat.lt_of_not_le fun hle => h (ho.fresh hle)

/-- The death of a reference that the table does not have any more. -/
theorem Owns.detached (ho : Owns s o) (hR : s.ref r = some R) (hd : R.death = some d) {w : Owner}
    (href : ∀ {r' Q}, s'.ref r' = some Q → r' ≠ r ∧ s.ref r' = some Q ∨ r' = r ∧ Q.death = none)
    (hclean : ∀ {q e}, e ≠ d → (s'.cleaning q = some e ↔ s.cleaning q = some e))
    (hcleand : ∀ {q}, s'.cleaning q = some d ↔ w = .cleaning q) (hw : w ≠ .freeing)
    (hfree : s'.freeing = s.freeing) (hnext : s'.nextDeath = s.nextDeath) :
    Owns s' (Function.update o d w) := by
  have hod := ho.ref hR hd
  have hlt : d < s.nextDeath := ho.lt (by rw [hod]; simp)
  refine ho.update w ?_ ?_ hclean hcleand (fun _ => by rw [hfree]) ⟨fun h => ?_, fun h => absurd h hw⟩
    (by rw [hfree]; exact ho.nodup) (Nat.le_of_eq hnext.symm) (by rwa [hnext])
  · intro r' Q e hQ hdeath _
    rcases href hQ with ⟨-, hQ⟩ | ⟨-, hnone⟩
    · exact ⟨Q, hQ, hdeath⟩
    · rw [hnone] at hdeath
      cases hdeath
  · intro r' Q hQ hdeath
    rcases href hQ with ⟨hne, hQ⟩ | ⟨-, hnone⟩
    · have := ho.ref hQ hdeath
      rw [hod] at this
      cases this
      exact absurd rfl hne
    · rw [hnone] at hdeath
      cases hdeath
  · rw [hfree, ho.freeing, hod] at h
    cases h

theorem Inv.clear {cookie : Nat} {looper : Bool} (h : Inv L s)
    (he : s.exec L (.clear x r cookie looper) = some s') : Inv L s' := by
  obtain ⟨ht, o, ho, hok⟩ := h
  obtain ⟨-, he⟩ := guard_bind he
  obtain ⟨R, hR, he⟩ := Option.bind_eq_some_iff.mp he
  obtain ⟨⟨hp, -, hn⟩, he⟩ := guard_bind he
  obtain ⟨d, hd, he⟩ := Option.bind_eq_some_iff.mp he
  obtain ⟨D, hD, he⟩ := Option.bind_eq_some_iff.mp he
  obtain ⟨-, he⟩ := guard_bind he
  obtain ⟨D', hD', hun, hproc, hdied, hdead, hlive⟩ := ho.attached hok hR hd
  rw [hD] at hD'
  cases hD'
  have hpend : ¬ Pending s R.node r := by
    rintro ⟨rs, hrs, -⟩
    rw [hn] at hrs
    cases hrs
  have hod := ho.ref hR hd
  have htab : Tables (s.detach r R d) := by
    have := ht.setRef hR { R with death := none } rfl rfl fun _ => rfl
    exact ⟨this.refs, this.nodeRefs, this.ofNode, this.nodup, this.notify, this.released⟩
  have hown : Owns (s.detach r R d) (Function.update o d .list) := by
    refine ho.detached hR hd (fun {r' Q} hQ => ?_) (fun _ => Iff.rfl) ⟨fun hc => ?_, fun hc => by cases hc⟩
      (by simp) rfl rfl
    · by_cases hr : r' = r
      · subst hr
        simp only [DeathState.detach, DeathState.setRef, DeathState.setLog, Function.update_self,
          Option.some.injEq] at hQ
        subst hQ
        exact .inr ⟨rfl, rfl⟩
      · simp only [DeathState.detach, DeathState.setRef, DeathState.setLog,
          Function.update_of_ne hr] at hQ
        exact .inl ⟨hr, hQ⟩
    · have := ho.cleaning.mp hc
      rw [hod] at this
      cases this
  have hother (e : DeathId) (hne : e ≠ d) : Ok L (s.detach r R d) e (o e) := by
    refine (hok e).setRef (r := r) (fun hoe => ?_) rfl (Function.update_of_ne hne ..) rfl rfl rfl rfl
      (Nat.le_refl _) fun hoe => ?_
    · have hoke := hok e
      rw [hoe] at hoke
      obtain ⟨R', -, hR', hde, -⟩ := hoke
      rw [hR] at hR'
      cases hR'
      rw [hd] at hde
      exact hne (Option.some.inj hde).symm
    · have hoke := hok e
      rw [hoe] at hoke
      exact hoke.1
  have hlog : (s.detach r R d).log d = { s.log d with clear := 1 } := by
    simp [DeathState.detach, DeathState.setLog, hun.clear]
  have htold : (s.log d).Told := by
    cases hdn : s.dead R.node with
    | true => rw [Log.Told, hdied, hdn, (hdead ⟨hdn, hpend⟩).1]; rfl
    | false => rw [Log.Told, hdied, hdn, (hlive (.inl hdn)).1]; rfl
  split at he
  · obtain ⟨-, l, hl, rfl⟩ := queueClear_eq he
    refine .one htab (o := o) hother ⟨rfl, rfl, rfl, rfl, rfl, rfl, rfl⟩ (fun _ h => h) rfl
      (fun e hne => Function.update_of_ne hne ..) (fun e hne => Function.update_of_ne hne ..) .list
      (hown.same rfl rfl rfl rfl) ⟨_, Function.update_self .., ?_⟩
    have hlog' : (((s.detach r R d).setDeath d { D with
      type := .clearDeathNotification, list := some l }).setLog d
        { (s.detach r R d).log d with clearDone := ((s.detach r R d).log d).clearDone + 1 }).log d =
        { s.log d with clear := 1, clearDone := 1 } := by
      simp [DeathState.setLog, hlog, hun.clearDone]
    rw [hlog']
    refine ⟨htold, rfl, hun.freed, .inr ⟨rfl, rfl, l, rfl, ?_⟩⟩
    rwa [← hp, ← hproc] at hl
  · rename_i hlist
    obtain ⟨htype, he⟩ := guard_bind he
    cases he
    have hdn : s.dead R.node = true := by
      by_contra hdn
      exact hlist (hlive (.inl (by simpa using hdn))).2
    have hq := (hdead ⟨hdn, hpend⟩).2
    refine .one htab (o := o) hother ⟨rfl, rfl, rfl, rfl, rfl, rfl, rfl⟩ (fun _ h => h) rfl
      (fun e hne => Function.update_of_ne hne ..) (fun _ _ => rfl) .list
      (hown.same rfl rfl rfl rfl) ⟨_, Function.update_self .., ?_⟩
    rw [show ((s.detach r R d).setDeath d _).log d = _ from hlog]
    refine ⟨htold, rfl, hun.freed, .inl ⟨⟨rfl, ?_⟩, hun.clearDone, hdied.trans hdn⟩⟩
    rcases hq with hq | ⟨-, l, hl, hp⟩
    · exact absurd hq hlist
    · exact ⟨l, hl, by rw [hproc]; exact hp⟩

/-- A step that changes the list of one death, or its type, but not its owner. -/
theorem Inv.setDeath (ht : Tables s) (ho : Owns s o) (hok : ∀ e, Ok L s e (o e)) {D' : RefDeath}
    (h : Ok L (s.setDeath d D') d (o d)) : Inv L (s.setDeath d D') :=
  .one ht (fun e _ => hok e) ⟨rfl, rfl, rfl, rfl, rfl, rfl, rfl⟩ (fun _ h => h) rfl
    (fun e hne => Function.update_of_ne hne ..) (fun _ _ => rfl) (o d)
    (by rw [Function.update_eq_self]; exact ho.same rfl rfl rfl rfl) h

/-- A death that is on a list after it has been cleared is freed. -/
theorem Inv.freeCleared (ht : Tables s) (ho : Owns s o) (hok : ∀ e, Ok L s e (o e)) (hod : o d = .list)
    (hD : s.death d = some D)
    (hrel : D.type = .deadBinderAndClear → s.released (s.log d).proc = true) :
    Inv L (s.freeDeath d) := by
  have hno (w : Owner) (hw : w ≠ .list) : o d ≠ w := by rw [hod]; exact hw.symm
  refine .one ht (fun e _ => hok e) ⟨rfl, rfl, rfl, rfl, rfl, rfl, rfl⟩ (fun _ h => h) rfl
    (fun e hne => Function.update_of_ne hne ..) (fun e hne => Function.update_of_ne hne ..) .freed ?_ ?_
  · refine ho.update .freed (fun hR he _ => ⟨_, hR, he⟩)
      (fun hR he => absurd (ho.ref hR he) (hno _ (by simp))) (fun _ => Iff.rfl)
      ⟨fun hc => absurd (ho.cleaning.mp hc) (hno _ (by simp)), fun h => by cases h⟩ (fun _ => Iff.rfl)
      ⟨fun hf => absurd (ho.freeing.mp hf) (hno _ (by simp)), fun h => by cases h⟩ ho.nodup
      (Nat.le_refl _) (ho.lt (hno _ (by simp)))
  · have hd := hok d
    rw [hod] at hd
    obtain ⟨D', hD', h₁, h₂, h₃, h₄⟩ := hd
    rw [hD] at hD'
    cases hD'
    refine ⟨ho.lt (hno _ (by simp)), Function.update_self .., ?_⟩
    rw [show (s.freeDeath d).log d = { s.log d with freed := (s.log d).freed + 1 } from
      Function.update_self ..]
    refine ⟨h₁, by simp [h₃], .inr ⟨h₂, ?_⟩⟩
    rcases h₄ with ⟨⟨ht, -⟩, h₅, -⟩ | ⟨-, h₅, -⟩
    · exact .inr ⟨h₅, hrel ht⟩
    · exact .inl h₅

theorem Inv.deadBinderDone {cookie : Nat} {looper : Bool} (h : Inv L s)
    (he : s.exec L (.deadBinderDone x d cookie looper) = some s') : Inv L s' := by
  obtain ⟨ht, o, ho, hok⟩ := h
  obtain ⟨-, he⟩ := guard_bind he
  obtain ⟨D, hD, he⟩ := Option.bind_eq_some_iff.mp he
  obtain ⟨⟨hl, -⟩, he⟩ := guard_bind he
  simp only at he
  have hcase := (hok d).onList hD hl
  split at he
  · rename_i htype
    have hod : o d = .list := by
      rcases hcase with ⟨htype', -⟩ | ⟨hod, -⟩
      · rw [htype] at htype'
        cases htype'
      · exact hod
    have hd := hok d
    rw [hod] at hd
    obtain ⟨D', hD', h₁, h₂, h₃, ⟨⟨-, l₁, hl₁, hp⟩, h₄, -⟩ | ⟨htype', -⟩⟩ := hd
    · obtain ⟨-, l, hl', rfl⟩ := queueClear_eq he
      rw [hD] at hD'
      cases hD'
      rw [hl] at hl₁
      cases hl₁
      refine .one ht (o := o) (fun e _ => hok e) ⟨rfl, rfl, rfl, rfl, rfl, rfl, rfl⟩ (fun _ h => h) rfl
        (fun e hne => Function.update_of_ne hne ..) (fun e hne => Function.update_of_ne hne ..) .list
        (by rw [← hod, Function.update_eq_self]; exact ho.same rfl rfl rfl rfl)
        ⟨_, Function.update_self .., ?_⟩
      rw [show ((s.setDeath d _).setLog d _).log d = _ from Function.update_self ..]
      refine ⟨h₁, h₂, h₃, .inr ⟨rfl, congrArg (· + 1) h₄, l, rfl, ?_⟩⟩
      rcases hp with hp | hp
      · cases hp
      · rwa [DeathList.delivered.inj hp] at hl'
    · rw [hD] at hD'
      cases hD'
      rw [htype] at htype'
      cases htype'
  · rename_i htype
    cases he
    refine Inv.setDeath ht ho hok ((hok d).moveList hD hl ?_ (.inl ⟨rfl, htype⟩))
    rcases hcase with ⟨htype', -⟩ | ⟨-, ⟨htype', -⟩ | ⟨-, hnot⟩⟩
    · simp [htype']
    · exact absurd htype' htype
    · exact hnot.elim

theorem Inv.read (h : Inv L s) (he : s.exec L (.read x d) = some s') : Inv L s' := by
  obtain ⟨ht, o, ho, hok⟩ := h
  obtain ⟨-, he⟩ := guard_bind he
  obtain ⟨D, hD, he⟩ := Option.bind_eq_some_iff.mp he
  obtain ⟨hl, he⟩ := guard_bind he
  obtain ⟨l, hl, hlx⟩ : ∃ l, D.list = some l ∧ (l = .thread x ∨ l = .todo (L.procOf x)) := by
    rcases hl with hl | hl
    · exact ⟨_, hl, .inl rfl⟩
    · exact ⟨_, hl, .inr rfl⟩
  have hcase := (hok d).onList hD hl
  split at he
  · rename_i htype
    cases he
    rcases hcase with ⟨htype', -⟩ | ⟨hod, -⟩
    · rw [htype] at htype'
      cases htype'
    · refine Inv.freeCleared ht ho hok hod hD fun htype' => ?_
      rw [htype] at htype'
      cases htype'
  · rename_i htype
    obtain ⟨-, rfl⟩ := enqueue_eq he
    refine Inv.setDeath ht ho hok ((hok d).moveList hD hl htype (.inr ⟨_, rfl, fun p hp => ?_⟩))
    rcases hlx with rfl | rfl
    · rcases hp with hp | hp <;> cases hp
    · rcases hp with hp | hp
      · cases hp
        exact .inr rfl
      · cases hp

theorem mem_update_erase {f : Nat → List RefId} {i j : Nat} {r' : RefId} (h : r' ∈ f i)
    (hr : r' ≠ r) : r' ∈ Function.update f j ((f j).erase r) i := by
  by_cases hij : i = j
  · subst hij
    rw [Function.update_self]
    exact (List.mem_erase_of_ne hr).mpr h
  · rwa [Function.update_of_ne hij]

theorem dropRef_ref {r' : RefId} {Q : Ref} (hQ : (s.dropRef r R).ref r' = some Q) :
    r' ≠ r ∧ s.ref r' = some Q := by
  by_cases hr : r' = r
  · subst hr
    simp [DeathState.dropRef] at hQ
  · simp only [DeathState.dropRef, Function.update_of_ne hr] at hQ
    exact ⟨hr, hQ⟩

/-- The tables without the reference `r`. -/
theorem Tables.dropRef (ht : Tables s) (hR : s.ref r = some R) (hn : s.notify R.node = none) :
    Tables (s.dropRef r R) := by
  have hold {r' : RefId} {Q : Ref} (hQ : (s.dropRef r R).ref r' = some Q) :
      r' ≠ r ∧ s.ref r' = some Q := dropRef_ref hQ
  constructor
  case refs =>
    intro r' Q hQ
    obtain ⟨hr, hQ⟩ := hold hQ
    exact mem_update_erase (ht.refs hQ) hr
  case nodeRefs =>
    intro r' Q hQ
    obtain ⟨hr, hQ⟩ := hold hQ
    exact mem_update_erase (ht.nodeRefs hQ) hr
  case ofNode =>
    intro m r' hr'
    by_cases hm : m = R.node
    · subst hm
      simp only [DeathState.dropRef, Function.update_self] at hr'
      obtain ⟨hne, hr'⟩ := (ht.nodup _).mem_erase_iff.mp hr'
      obtain ⟨Q, hQ, hQm⟩ := ht.ofNode hr'
      exact ⟨Q, (Function.update_of_ne hne ..).trans hQ, hQm⟩
    · simp only [DeathState.dropRef, Function.update_of_ne hm] at hr'
      obtain ⟨Q, hQ, hQm⟩ := ht.ofNode hr'
      have hne : r' ≠ r := by
        rintro rfl
        rw [hR] at hQ
        cases hQ
        exact hm hQm.symm
      exact ⟨Q, (Function.update_of_ne hne ..).trans hQ, hQm⟩
  case nodup =>
    intro m
    by_cases hm : m = R.node
    · subst hm
      simp only [DeathState.dropRef, Function.update_self]
      exact (ht.nodup _).erase r
    · simp only [DeathState.dropRef, Function.update_of_ne hm]
      exact ht.nodup m
  case notify =>
    intro m rs hm
    obtain ⟨h₁, h₂⟩ := ht.notify hm
    have hne : m ≠ R.node := by
      rintro rfl
      exact Option.some_ne_none _ (hm.symm.trans hn)
    exact ⟨h₁, by simpa only [DeathState.dropRef, Function.update_of_ne hne] using h₂⟩
  case released =>
    intro q hq
    obtain ⟨h₁, h₂, h₃⟩ := ht.released hq
    refine ⟨h₁, ?_, fun hQ hp => h₃ (hold hQ).2 hp⟩
    by_cases hqp : q = R.proc
    · subst hqp
      exact (Function.update_self ..).trans (h₃ hR rfl)
    · exact (Function.update_of_ne hqp ..).trans h₂

theorem Inv.cleanupRef (h : Inv L s) (he : s.exec L (.cleanupRef r) = some s') : Inv L s' := by
  obtain ⟨ht, o, ho, hok⟩ := h
  obtain ⟨R, hR, he⟩ := Option.bind_eq_some_iff.mp he
  obtain ⟨⟨hc, hn⟩, he⟩ := guard_bind he
  cases he
  have hclean {q : ProcId} {e : DeathId} (hne : R.death ≠ some e) :
      (s.dropRef r R).cleaning q = some e ↔ s.cleaning q = some e := by
    by_cases hq : q = R.proc
    · subst hq
      simp only [DeathState.dropRef, Function.update_self, hc]
      exact ⟨fun h => absurd h hne, fun h => by cases h⟩
    · simp only [DeathState.dropRef, Function.update_of_ne hq]
  have hother (e : DeathId) (hne : R.death ≠ some e) : Ok L (s.dropRef r R) e (o e) := by
    refine (hok e).setRef (r := r) (fun hoe => ?_) rfl rfl rfl rfl rfl rfl (Nat.le_refl _) fun hoe => ?_
    · have hoke := hok e
      rw [hoe] at hoke
      obtain ⟨R', -, hR', hde, -⟩ := hoke
      rw [hR] at hR'
      cases hR'
      exact hne hde
    · have hoke := hok e
      rw [hoe] at hoke
      exact hoke.1
  refine ⟨ht.dropRef hR hn, ?_⟩
  cases hd : R.death with
  | none =>
    rw [hd] at hclean hother
    refine ⟨o, ⟨fun hQ => ho.ref (dropRef_ref hQ).2, (hclean (by simp)).trans ho.cleaning, ho.freeing, ho.nodup,
      ho.fresh⟩, fun e => hother e (by simp)⟩
  | some d =>
    rw [hd] at hclean hother
    refine ⟨Function.update o d (.cleaning R.proc), ?_, fun e => ?_⟩
    · refine ho.detached hR hd (fun hQ => .inl (dropRef_ref hQ))
        (fun hne => hclean (by simpa using Ne.symm hne))
        (fun {q} => ?_) (by simp) rfl rfl
      by_cases hq : q = R.proc
      · subst hq
        simp [DeathState.dropRef, hd]
      · simp only [DeathState.dropRef, Function.update_of_ne hq, Owner.cleaning.injEq]
        refine ⟨fun h => ?_, fun h => absurd h.symm hq⟩
        have := ho.cleaning.mp h
        rw [ho.ref hR hd] at this
        cases this
    · by_cases he : e = d
      · subst he
        rw [Function.update_self]
        obtain ⟨D, hD, hun, hproc, hdied, hdead, hlive⟩ := ho.attached hok hR hd
        have hpend : ¬ Pending s R.node r := by
          rintro ⟨rs, hrs, -⟩
          rw [hn] at hrs
          cases hrs
        refine ⟨D, hD, ?_, hproc, ?_, hun⟩
        · cases hdn : s.dead R.node with
          | true => exact (hdead ⟨hdn, hpend⟩).2
          | false => exact .inl (hlive (.inl hdn)).2
        · show (s.log e).Told
          cases hdn : s.dead R.node with
          | true => rw [Log.Told, hdied, hdn, (hdead ⟨hdn, hpend⟩).1]; rfl
          | false => rw [Log.Told, hdied, hdn, (hlive (.inl hdn)).1]; rfl
      · rw [Function.update_of_ne he]
        exact hother e (by simpa using Ne.symm he)

theorem Inv.dequeueDeath (h : Inv L s) (he : s.exec L (.dequeueDeath p) = some s') : Inv L s' := by
  obtain ⟨ht, o, ho, hok⟩ := h
  obtain ⟨d, hd, he⟩ := Option.bind_eq_some_iff.mp he
  obtain ⟨D, hD, he⟩ := Option.bind_eq_some_iff.mp he
  cases he
  have hod := ho.cleaning.mp hd
  have hno (w : Owner) (hw : w ≠ .cleaning p) : o d ≠ w := by rw [hod]; exact hw.symm
  have hnot : d ∉ s.freeing := fun hf => hno _ (by simp) (ho.freeing.mp hf)
  refine .one ht (fun e _ => hok e) ⟨rfl, rfl, rfl, rfl, rfl, rfl, rfl⟩ (fun q hq => ?_) rfl
    (fun e hne => Function.update_of_ne hne ..) (fun _ _ => rfl) .freeing ?_ ?_
  · by_cases hqp : q = p
    · subst hqp
      exact Function.update_self ..
    · exact (Function.update_of_ne hqp ..).trans hq
  · refine ho.update .freeing (fun hR he _ => ⟨_, hR, he⟩)
      (fun hR he => absurd (ho.ref hR he) (hno _ (by simp))) (fun {q e} hne => ?_)
      (fun {q} => ⟨fun hc => ?_, fun h => by cases h⟩)
      (fun {e} hne => ⟨fun h => (List.mem_cons.mp h).resolve_left hne, List.mem_cons_of_mem _⟩)
      ⟨fun _ => rfl, fun _ => List.mem_cons_self⟩ (List.nodup_cons.mpr ⟨hnot, ho.nodup⟩)
      (Nat.le_refl _) (ho.lt (hno _ (by simp)))
    · by_cases hqp : q = p
      · subst hqp
        simp only [Function.update_self, hd]
        exact ⟨fun h => (by cases h), fun h => absurd (Option.some.inj h).symm hne⟩
      · simp only [Function.update_of_ne hqp]
    · by_cases hqp : q = p
      · subst hqp
        simp only [Function.update_self] at hc
        cases hc
      · simp only [Function.update_of_ne hqp] at hc
        have := ho.cleaning.mp hc
        rw [hod] at this
        cases this
        exact absurd rfl hqp
  · have hdok := hok d
    rw [hod] at hdok
    obtain ⟨-, -, -, -, h₁, h₂⟩ := hdok
    exact ⟨_, Function.update_self .., rfl, h₁, h₂⟩

theorem Inv.freeRef (h : Inv L s) (he : s.exec L (.freeRef d) = some s') : Inv L s' := by
  obtain ⟨ht, o, ho, hok⟩ := h
  obtain ⟨hd, he⟩ := guard_bind he
  cases he
  have hod := ho.freeing.mp hd
  have hno (w : Owner) (hw : w ≠ .freeing) : o d ≠ w := by rw [hod]; exact hw.symm
  refine .one ht (fun e _ => hok e) ⟨rfl, rfl, rfl, rfl, rfl, rfl, rfl⟩ (fun _ h => h) rfl
    (fun e hne => Function.update_of_ne hne ..) (fun e hne => Function.update_of_ne hne ..) .freed ?_ ?_
  · refine ho.update .freed (fun hR he _ => ⟨_, hR, he⟩)
      (fun hR he => absurd (ho.ref hR he) (hno _ (by simp))) (fun _ => Iff.rfl)
      ⟨fun hc => absurd (ho.cleaning.mp hc) (hno _ (by simp)), fun h => by cases h⟩
      (fun hne => List.mem_erase_of_ne hne)
      ⟨fun hf => absurd rfl (ho.nodup.mem_erase_iff.mp hf).1, fun h => by cases h⟩ (ho.nodup.erase d)
      (Nat.le_refl _) (ho.lt (hno _ (by simp)))
  · have hdok := hok d
    rw [hod] at hdok
    obtain ⟨-, -, -, h₁, h₂⟩ := hdok
    refine ⟨ho.lt (hno _ (by simp)), Function.update_self .., ?_⟩
    rw [show ({ s.freeDeath d with freeing := s.freeing.erase d } : DeathState).log d =
      { s.log d with freed := (s.log d).freed + 1 } from Function.update_self ..]
    exact ⟨h₁, by simp [h₂.freed], .inl ⟨h₂.clear, h₂.clearDone⟩⟩

theorem Inv.nodeRelease (h : Inv L s) (he : s.exec L (.nodeRelease n) = some s') : Inv L s' := by
  obtain ⟨ht, o, ho, hok⟩ := h
  obtain ⟨⟨hn, hdead⟩, he⟩ := guard_bind he
  cases he
  -- only a death that is attached to a reference of the node is told
  have hdied {e : DeathId} (hany : ((s.nodeRefs n).any fun r => (s.ref r).any fun R =>
      R.death == some e) = true) : ∃ r R, o e = .ref r ∧ s.ref r = some R ∧ R.node = n := by
    obtain ⟨r, hr, hany⟩ := List.any_eq_true.mp hany
    obtain ⟨R, hR, hde⟩ := (Option.any_eq_true _ _).mp hany
    obtain ⟨R', hR', hRn⟩ := ht.ofNode hr
    rw [hR] at hR'
    cases hR'
    exact ⟨r, _, ho.ref hR (by simpa using hde), hR, hRn⟩
  refine ⟨⟨ht.refs, ht.nodeRefs, ht.ofNode, ht.nodup, fun {m rs} hm => ?_, ht.released⟩, o,
    ho.same rfl rfl rfl rfl, fun e => ?_⟩
  · by_cases hmn : m = n
    · subst hmn
      simp only [Function.update_self, Option.some.injEq] at hm
      subst hm
      exact ⟨Function.update_self .., .refl _⟩
    · simp only [Function.update_of_ne hmn] at hm ⊢
      exact ht.notify hm
  by_cases hany : ((s.nodeRefs n).any fun r => (s.ref r).any fun R => R.death == some e) = true
  · obtain ⟨r, R, hoe, hR, hRn⟩ := hdied hany
    have hoke := hok e
    rw [hoe] at hoke ⊢
    obtain ⟨R', D, hR', hd, hD, hun, hproc, -, -, hlive⟩ := hoke
    rw [hR] at hR'
    cases hR'
    subst hRn
    have hmem : r ∈ s.nodeRefs R.node := ht.nodeRefs hR
    refine ⟨R, D, hR, hd, hD, ?_⟩
    simp only [if_pos hany, Function.update_self, Pending]
    refine ⟨⟨hun.clear, hun.clearDone, hun.freed⟩, hproc, trivial, fun h => ?_, fun _ => hlive (.inl hdead)⟩
    exact absurd ⟨_, rfl, hmem⟩ h.2
  · refine (hok e).frame rfl (if_neg hany) (Nat.le_refl _) (fun hoe => ?_) (fun _ h => h)
      fun r R hoe hR => ?_
    · have hoke := hok e
      rw [hoe] at hoke
      exact hoke.1
    · have hne : R.node ≠ n := by
        rintro rfl
        have hoke := hok e
        rw [hoe] at hoke
        obtain ⟨R', -, hR', hd, -⟩ := hoke
        rw [hR] at hR'
        cases hR'
        refine hany (List.any_eq_true.mpr ⟨r, ht.nodeRefs hR, ?_⟩)
        simp [hR, hd]
      exact ⟨hR, Function.update_of_ne hne .., by simp only [Pending, Function.update_of_ne hne]⟩

theorem Inv.notify (h : Inv L s) (he : s.exec L (.notify n) = some s') : Inv L s' := by
  obtain ⟨ht, o, ho, hok⟩ := h
  obtain ⟨rs₀, hrs₀, he⟩ := Option.bind_eq_some_iff.mp he
  -- the references that have been told, or have no death to be told of
  have hframe {w : Option (List RefId)} {e : DeathId}
      (hw : ∀ rs, w = some rs → rs.Sublist rs₀)
      (hpend : ∀ r, o e = .ref r → r ∈ rs₀ → ∃ rs, w = some rs ∧ r ∈ rs) :
      Ok L { s with notify := Function.update s.notify n w } e (o e) := by
    refine (hok e).frame rfl rfl (Nat.le_refl _) (fun hoe => ?_) (fun _ h => h) fun r R hoe hR => ?_
    · have hoke := hok e
      rw [hoe] at hoke
      exact hoke.1
    · refine ⟨hR, rfl, ?_⟩
      by_cases hRn : R.node = n
      · simp only [Pending, hRn, Function.update_self, hrs₀, Option.some.injEq]
        constructor
        · rintro ⟨rs, hrs, hr⟩
          exact ⟨rs₀, rfl, (hw rs hrs).subset hr⟩
        · rintro ⟨rs, hrs, hr⟩
          rw [← hrs] at hr
          exact hpend r hoe hr
      · simp only [Pending, Function.update_of_ne hRn]
  have htab {w : Option (List RefId)} (hw : ∀ rs, w = some rs → rs.Sublist rs₀) :
      Tables { s with notify := Function.update s.notify n w } := by
    refine ⟨ht.refs, ht.nodeRefs, ht.ofNode, ht.nodup, fun {m rs} hm => ?_, ht.released⟩
    by_cases hmn : m = n
    · subst hmn
      simp only [Function.update_self] at hm
      obtain ⟨h₁, h₂⟩ := ht.notify hrs₀
      exact ⟨h₁, (hw rs hm).trans h₂⟩
    · simp only [Function.update_of_ne hmn] at hm
      exact ht.notify hm
  split at he
  · cases he
    have hw : ∀ rs : List RefId, none = some rs → rs.Sublist [] := fun rs h => nomatch h
    exact ⟨htab hw, o, ho.same rfl rfl rfl rfl, fun e => hframe hw fun r _ hr => nomatch hr⟩
  · rename_i r rs
    obtain ⟨R, hR, he⟩ := Option.bind_eq_some_iff.mp he
    obtain ⟨hdead, hsub⟩ := ht.notify hrs₀
    obtain ⟨R', hR', rfl⟩ := ht.ofNode (hsub.subset List.mem_cons_self)
    rw [hR] at hR'
    cases hR'
    have hw : ∀ qs : List RefId, some rs = some qs → qs.Sublist (r :: rs) := by
      rintro _ ⟨⟩
      exact List.sublist_cons_self r rs
    have hkeep {e : DeathId} (he : o e ≠ .ref r) :
        Ok L { s with notify := Function.update s.notify R.node (some rs) } e (o e) := by
      refine hframe hw fun q hoe hq => ⟨rs, rfl, ?_⟩
      refine (List.mem_cons.mp hq).resolve_left ?_
      rintro rfl
      exact he hoe
    simp only at he
    split at he
    · rename_i hnone
      cases he
      refine ⟨htab hw, o, ho.same rfl rfl rfl rfl, fun e => hkeep fun hoe => ?_⟩
      have hoke := hok e
      rw [hoe] at hoke
      obtain ⟨R', -, hR', hd, -⟩ := hoke
      rw [hR] at hR'
      cases hR'
      rw [hnone] at hd
      cases hd
    · rename_i d hd
      obtain ⟨D, hD, -, rfl⟩ := queueDead_eq he
      have hod := ho.ref hR hd
      have hne {e : DeathId} (h : e ≠ d) : o e ≠ .ref r := by
        intro hoe
        have hoke := hok e
        rw [hoe] at hoke
        obtain ⟨R', -, hR', hde, -⟩ := hoke
        rw [hR] at hR'
        cases hR'
        rw [hd] at hde
        exact h (Option.some.inj hde).symm
      refine .one (htab hw) (o := o) (fun e h => hkeep (hne h)) ⟨rfl, rfl, rfl, rfl, rfl, rfl, rfl⟩
        (fun _ h => h) rfl (fun e h => Function.update_of_ne h ..) (fun e h => Function.update_of_ne h ..)
        (.ref r) (by rw [← hod, Function.update_eq_self]; exact ho.same rfl rfl rfl rfl) ?_
      obtain ⟨D', hD', hun, hproc, hdied, -, hlive⟩ := ho.attached hok hR hd
      have hzero := (hlive (.inr ⟨_, hrs₀, List.mem_cons_self⟩)).1
      refine ⟨R, _, hR, hd, Function.update_self .., ?_⟩
      simp only [DeathState.setLog, DeathState.setDeath, Function.update_self, hzero]
      refine ⟨⟨hun.clear, hun.clearDone, hun.freed⟩, hproc, hdied,
        fun _ => ⟨trivial, .inr ⟨rfl, _, rfl, .inl rfl⟩⟩, fun h => ?_⟩
      rcases h with h | ⟨qs, hqs, hr⟩
      · rw [hdead] at h
        cases h
      · simp only [Function.update_self, Option.some.injEq] at hqs
        subst hqs
        exact absurd hr (List.nodup_cons.mp ((ht.nodup _).sublist hsub)).1

theorem Inv.releaseWork (h : Inv L s) (he : s.exec L (.releaseWork d) = some s') : Inv L s' := by
  obtain ⟨ht, o, ho, hok⟩ := h
  obtain ⟨D, hD, he⟩ := Option.bind_eq_some_iff.mp he
  obtain ⟨l, hl, he⟩ := Option.bind_eq_some_iff.mp he
  obtain ⟨hab, he⟩ := guard_bind he
  have hrel {p : ProcId} (hp : OfProc p l) : s.released p = true := by
    rcases hp with rfl | rfl <;> exact hab
  rcases (hok d).onList hD hl with ⟨-, ⟨r, R, -, hR, hd, hp⟩ | ⟨p, hod, hp⟩⟩ | ⟨hod, hcase⟩
  -- the references of an abandoned process are gone
  · have := (ht.released (hrel hp)).2.2 hR rfl
    rw [hd] at this
    cases this
  · have := (ht.released (hrel hp)).2.1
    rw [ho.cleaning.mpr hod] at this
    cases this
  · have hfree : s' = s.freeDeath d := by
      rcases hcase with ⟨htype, -⟩ | ⟨htype, -⟩
      · rw [htype] at he
        cases he
        rfl
      · rw [htype] at he
        cases he
        rfl
    subst hfree
    refine Inv.freeCleared ht ho hok hod hD fun htype => ?_
    rcases hcase with ⟨-, hp⟩ | ⟨htype', -⟩
    · exact hrel hp
    · rw [htype] at htype'
      cases htype'

/-- A step that only says that threads or processes are gone. -/
theorem Inv.gone (h : Inv L s) (hs : s' = { s with
      closed := s'.closed, exited := s'.exited, released := s'.released })
    (hc : ∀ p, s.closed p = true → s'.closed p = true)
    (hr : ∀ p, s.released p = true → s'.released p = true)
    (hnew : ∀ p, s'.released p = true → s.released p = true ∨
      s'.closed p = true ∧ s.cleaning p = none ∧ s.refs p = []) : Inv L s' := by
  obtain ⟨ht, o, ho, hok⟩ := h
  have e₁ : s'.ref = s.ref := by rw [hs]
  have e₂ : s'.refs = s.refs := by rw [hs]
  have e₃ : s'.nodeRefs = s.nodeRefs := by rw [hs]
  have e₄ : s'.dead = s.dead := by rw [hs]
  have e₅ : s'.notify = s.notify := by rw [hs]
  have e₆ : s'.cleaning = s.cleaning := by rw [hs]
  have e₇ : s'.nextDeath = s.nextDeath := by rw [hs]
  refine ⟨⟨?_, ?_, ?_, ?_, ?_, fun {p} hp => ?_⟩, o, ho.same e₁ e₆ (by rw [hs]) e₇, fun e => ?_⟩
  · rw [e₁, e₂]; exact ht.refs
  · rw [e₁, e₃]; exact ht.nodeRefs
  · rw [e₁, e₃]; exact ht.ofNode
  · rw [e₃]; exact ht.nodup
  · rw [e₃, e₄, e₅]; exact ht.notify
  · rw [e₁, e₆]
    rcases hnew p hp with hp | ⟨h₁, h₂, h₃⟩
    · obtain ⟨h₁, h₂, h₃⟩ := ht.released hp
      exact ⟨hc p h₁, h₂, h₃⟩
    · refine ⟨h₁, h₂, fun {r R} hR hRp => ?_⟩
      have := ht.refs hR
      rw [hRp, h₃] at this
      cases this
  · refine (hok e).frame (by rw [hs]) (by rw [hs]) (Nat.le_of_eq e₇.symm) (fun hoe => ?_) hr
      fun r R _ hR => ⟨by rwa [e₁], by rw [e₄], by simp only [Pending, e₅]⟩
    have hoke := hok e
    rw [hoe] at hoke
    rw [e₇]
    exact hoke.1

theorem Inv.exec (h : Inv L s) (he : s.exec L op = some s') : Inv L s' := by
  cases op with
  | newRef => exact h.newRef he
  | request => exact h.request he
  | clear => exact h.clear he
  | deadBinderDone => exact h.deadBinderDone he
  | read => exact h.read he
  | cleanupRef => exact h.cleanupRef he
  | dequeueDeath => exact h.dequeueDeath he
  | freeRef => exact h.freeRef he
  | nodeRelease => exact h.nodeRelease he
  | notify => exact h.notify he
  | threadExit =>
    obtain ⟨-, he⟩ := guard_bind he
    cases he
    exact h.gone rfl (fun _ h => h) (fun _ h => h) fun _ h => .inl h
  | close p =>
    cases he
    refine h.gone rfl (fun q hq => ?_) (fun _ h => h) fun _ h => .inl h
    by_cases hqp : q = p
    · subst hqp
      exact Function.update_self ..
    · exact (Function.update_of_ne hqp ..).trans hq
  | refsReleased p =>
    obtain ⟨⟨h₁, h₂, h₃⟩, he⟩ := guard_bind he
    cases he
    refine h.gone rfl (fun _ h => h) (fun q hq => ?_) fun q hq => ?_
    · by_cases hqp : q = p
      · subst hqp
        exact Function.update_self ..
      · exact (Function.update_of_ne hqp ..).trans hq
    · by_cases hqp : q = p
      · subst hqp
        exact .inr ⟨h₁, h₂, h₃⟩
      · exact .inl ((Function.update_of_ne hqp ..).symm.trans hq)
  | releaseWork => exact h.releaseWork he

theorem inv_start : Inv L start := by
  refine ⟨⟨?_, ?_, ?_, fun _ => List.nodup_nil, ?_, ?_⟩, fun _ => .nobody,
    ⟨?_, ⟨?_, ?_⟩, ⟨?_, ?_⟩, List.nodup_nil, fun _ => rfl⟩, fun _ => ⟨Nat.zero_le _, rfl⟩⟩
  all_goals
    intros
    simp_all [start]

theorem inv_of_reach (h : (deathSys L).Reach s) : Inv L s :=
  h.inv (by rintro _ rfl; exact inv_start) fun _ _ _ hi he => hi.exec he

/-! ## What a request gets -/

/-- The ways in which the code gets at a death to free it: through the reference it is attached to
(also while that reference is being deleted), or, after the request has been cleared, through the
list it is on; or it has been freed. -/
def FreedBy (s : DeathState) (d : DeathId) : Owner → Prop
  | .nobody => False
  | .ref r => ∃ R, s.ref r = some R ∧ R.death = some d
  | .cleaning p => s.cleaning p = some d
  | .freeing => d ∈ s.freeing
  | .list => (s.log d).clear = 1 ∧ ∃ D l, s.death d = some D ∧ D.list = some l
  | .freed => s.death d = none

theorem Ok.freedBy {w : Owner} (ho : Owns s o) (h : Ok L s d w) (hw : w = o d) (hd : d < s.nextDeath) :
    FreedBy s d w := by
  cases w with
  | nobody => exact absurd hd (Nat.not_lt.mpr h.1)
  | ref r =>
    obtain ⟨R, -, hR, hdR, -⟩ := h
    exact ⟨R, hR, hdR⟩
  | cleaning p => exact ho.cleaning.mpr hw.symm
  | freeing => exact ho.freeing.mpr hw.symm
  | list =>
    obtain ⟨D, hD, -, h₁, -, ⟨⟨-, l, hl, -⟩, -⟩ | ⟨-, -, l, hl, -⟩⟩ := h
    · exact ⟨h₁, D, l, hD, hl⟩
    · exact ⟨h₁, D, l, hD, hl⟩
  | freed => exact h.2.1

theorem Ok.eq_list {w : Owner} (h : Ok L s d w) (hclear : (s.log d).clear = 1)
    (hD : s.death d = some D) : w = .list := by
  have hun (hun : (s.log d).Untouched) : w = .list := by
    rw [hun.clear] at hclear
    cases hclear
  cases w with
  | nobody => exact absurd (hD.symm.trans h.2) (by simp)
  | ref r =>
    obtain ⟨-, -, -, -, -, h, -⟩ := h
    exact hun h
  | cleaning p =>
    obtain ⟨-, -, -, -, -, h⟩ := h
    exact hun h
  | freeing =>
    obtain ⟨-, -, -, -, h⟩ := h
    exact hun h
  | list => rfl
  | freed => exact absurd (hD.symm.trans h.2.1) (by simp)

theorem FreedBy.eq {w : Owner} (h : FreedBy s d w) (ho : Owns s o) (hok : Ok L s d (o d))
    (hd : d < s.nextDeath) : w = o d := by
  cases w with
  | nobody => exact h.elim
  | ref r =>
    obtain ⟨R, hR, hdR⟩ := h
    exact (ho.ref hR hdR).symm
  | cleaning p => exact (ho.cleaning.mp h).symm
  | freeing => exact (ho.freeing.mp h).symm
  | list =>
    obtain ⟨hclear, D, -, hD, -⟩ := h
    exact (hok.eq_list hclear hD).symm
  | freed =>
    have hnone {D : RefDeath} (hD : s.death d = some D) : Owner.freed = o d :=
      absurd (hD.symm.trans h) (by simp)
    cases hw : o d with
    | nobody =>
      rw [hw] at hok
      exact absurd hd (Nat.not_lt.mpr hok.1)
    | freed => rfl
    | ref r =>
      rw [hw] at hok hnone
      obtain ⟨-, D, -, -, hD, -⟩ := hok
      exact hnone hD
    | cleaning p =>
      rw [hw] at hok hnone
      exact hnone hok.choose_spec.1
    | freeing =>
      rw [hw] at hok hnone
      exact hnone hok.choose_spec.1
    | list =>
      rw [hw] at hok hnone
      exact hnone hok.choose_spec.1

/-- `BR_DEAD_BINDER` has been queued once if the node has died, or is about to be. -/
theorem Ok.told {w : Owner} (h : Ok L s d w) (hw : w ≠ .nobody) : (s.log d).Told ∨
    (s.log d).died = true ∧ (s.log d).deadBinder = 0 ∧
      ∃ r R, s.ref r = some R ∧ R.death = some d ∧ Pending s R.node r := by
  cases w with
  | nobody => exact absurd rfl hw
  | ref r =>
    obtain ⟨R, D, hR, hd, hD, -, -, hdied, hdead, hlive⟩ := h
    rw [Log.Told, hdied]
    cases hdn : s.dead R.node with
    | false => exact .inl (hlive (.inl hdn)).1
    | true =>
      by_cases hp : Pending s R.node r
      · exact .inr ⟨rfl, (hlive (.inr hp)).1, r, R, hR, hd, hp⟩
      · exact .inl (hdead ⟨hdn, hp⟩).1
  | cleaning p =>
    obtain ⟨-, -, -, -, h, -⟩ := h
    exact .inl h
  | freeing =>
    obtain ⟨-, -, -, h, -⟩ := h
    exact .inl h
  | list =>
    obtain ⟨-, -, h, -⟩ := h
    exact .inl h
  | freed => exact .inl h.2.2.1

/-- A request is cleared at most once, and then answered once. -/
theorem Ok.cleared {w : Owner} (h : Ok L s d w) (hw : w ≠ .nobody) :
    ((s.log d).clear = 0 ∧ (s.log d).clearDone = 0) ∨ ((s.log d).clear = 1 ∧
      ((s.log d).clearDone = 1 ∨ (s.log d).clearDone = 0 ∧
        ((∃ D, s.death d = some D ∧ Waiting D (s.log d).proc) ∨ s.released (s.log d).proc = true))) := by
  cases w with
  | nobody => exact absurd rfl hw
  | ref r =>
    obtain ⟨-, -, -, -, -, h, -⟩ := h
    exact .inl ⟨h.clear, h.clearDone⟩
  | cleaning p =>
    obtain ⟨-, -, -, -, -, h⟩ := h
    exact .inl ⟨h.clear, h.clearDone⟩
  | freeing =>
    obtain ⟨-, -, -, -, h⟩ := h
    exact .inl ⟨h.clear, h.clearDone⟩
  | list =>
    obtain ⟨D, hD, -, h₁, -, ⟨hwait, h₂, -⟩ | ⟨-, h₂, -⟩⟩ := h
    · exact .inr ⟨h₁, .inr ⟨h₂, .inl ⟨D, hD, hwait⟩⟩⟩
    · exact .inr ⟨h₁, .inl h₂⟩
  | freed => exact h.2.2.2.2.imp_right fun h => ⟨h.1, h.2.imp_right fun h => ⟨h.1, .inr h.2⟩⟩

theorem Ok.freed_eq {w : Owner} (h : Ok L s d w) (hw : w ≠ .nobody) :
    (s.log d).freed = if s.death d = none then 1 else 0 := by
  cases w with
  | nobody => exact absurd rfl hw
  | ref r =>
    obtain ⟨-, D, -, -, hD, h, -⟩ := h
    simp [hD, h.freed]
  | cleaning p =>
    obtain ⟨D, hD, -, -, -, h⟩ := h
    simp [hD, h.freed]
  | freeing =>
    obtain ⟨D, hD, -, -, h⟩ := h
    simp [hD, h.freed]
  | list =>
    obtain ⟨D, hD, -, -, h, -⟩ := h
    simp [hD, h]
  | freed => simp [h.2.1, h.2.2.2.1]

/-- `BC_DEAD_BINDER_DONE` answers a request that has been cleared in the meantime. -/
theorem Inv.answered {cookie : Nat} {looper : Bool} (h : Inv L s) (hclear : (s.log d).clear = 1)
    (he : s.exec L (.deadBinderDone x d cookie looper) = some s') : (s'.log d).clearDone = 1 := by
  obtain ⟨-, o, -, hok⟩ := h
  obtain ⟨-, he⟩ := guard_bind he
  obtain ⟨D, hD, he⟩ := Option.bind_eq_some_iff.mp he
  obtain ⟨⟨hl, -⟩, he⟩ := guard_bind he
  have hd := hok d
  rw [(hok d).eq_list hclear hD] at hd
  obtain ⟨D', hD', -, -, -, ⟨⟨htype, -⟩, h₁, -⟩ | ⟨-, -, l, hl', hp⟩⟩ := hd
  · rw [hD] at hD'
    cases hD'
    rw [if_pos htype] at he
    obtain ⟨-, l, -, rfl⟩ := queueClear_eq he
    simp [DeathState.setLog, DeathState.setDeath, h₁]
  · rw [hD] at hD'
    cases hD'
    rw [hl] at hl'
    cases hl'
    exact hp.elim

/-- When the process is gone, each of its deaths has been freed, or can be. -/
theorem Inv.freeable (h : Inv L s)
    (hrel : s.released (s.log d).proc = true) : s.death d = none ∨
      ∃ op s', (op = .freeRef d ∨ op = .releaseWork d) ∧ s.exec L op = some s' ∧ s'.death d = none := by
  obtain ⟨ht, o, ho, hok⟩ := h
  have hokd := hok d
  obtain ⟨hclosed, hclean, hrefs⟩ := ht.released hrel
  cases hw : o d with
  | nobody =>
    rw [hw] at hokd
    exact .inl hokd.2
  | ref r =>
    rw [hw] at hokd
    obtain ⟨R, -, hR, hdR, -, -, hproc, -⟩ := hokd
    exact absurd (hdR.symm.trans (hrefs hR hproc.symm)) (by simp)
  | cleaning p =>
    rw [hw] at hokd
    obtain ⟨-, -, -, hproc, -⟩ := hokd
    rw [hproc, ho.cleaning.mpr hw] at hclean
    cases hclean
  | freeing =>
    refine .inr ⟨.freeRef d, { s.freeDeath d with freeing := s.freeing.erase d }, .inl rfl, ?_,
      Function.update_self ..⟩
    simp [DeathState.exec, guard, ho.freeing.mpr hw]
  | list =>
    rw [hw] at hokd
    obtain ⟨D, hD, -, -, -, ⟨⟨htype, l, hl, hp⟩, -⟩ | ⟨htype, -, l, hl, hp⟩⟩ := hokd
    · have hab : s.abandoned L l = true := by
        rcases hp with rfl | rfl
        · exact hrel
        · exact hrel
      refine .inr ⟨.releaseWork d, s.freeDeath d, .inr rfl, ?_, Function.update_self ..⟩
      simp [DeathState.exec, guard, hD, hl, hab, htype]
    · have hab : s.abandoned L l = true := by
        cases l with
        | todo q =>
          have hq : q = (s.log d).proc := hp
          rw [← hq] at hrel
          exact hrel
        | thread x =>
          have hx : L.procOf x = (s.log d).proc := hp
          simp [DeathState.abandoned, hx, hclosed]
        | delivered q => exact hp.elim
      refine .inr ⟨.releaseWork d, s.freeDeath d, .inr rfl, ?_, Function.update_self ..⟩
      simp [DeathState.exec, guard, hD, hl, hab, htype]
  | freed =>
    rw [hw] at hokd
    exact .inl hokd.2.1

/-- In every run, for every request that was accepted:
* `BR_DEAD_BINDER` is queued once if the node has died (then or before) while the request was set, as
  soon as `binder_node_release` has gone to the reference, and never otherwise;
* the request is cleared at most once, and answered by one `BR_CLEAR_DEATH_NOTIFICATION_DONE`: at
  once, or by the `BC_DEAD_BINDER_DONE` for the death that waits for it; only a process that is gone
  gets no answer;
* there is exactly one way to get at the death to free it, it is freed once, and it can be freed when
  its process is gone;
* no `BUG_ON` is hit: an attached death that is on a list is a `BINDER_WORK_DEAD_BINDER`, and one that
  `binder_node_release` still has to queue is on no list. -/
theorem deaths_sound (h : (deathSys L).Reach s) (hd : d < s.nextDeath) :
    ((s.log d).deadBinder = (s.log d).died.toNat ∨
      (s.log d).died = true ∧ (s.log d).deadBinder = 0 ∧
        ∃ r R, s.ref r = some R ∧ R.death = some d ∧ Pending s R.node r) ∧
    ((s.log d).clear = 0 ∧ (s.log d).clearDone = 0 ∨ (s.log d).clear = 1 ∧
      ((s.log d).clearDone = 1 ∨ (s.log d).clearDone = 0 ∧
        ((∃ D, s.death d = some D ∧ Waiting D (s.log d).proc) ∨ s.released (s.log d).proc = true))) ∧
    (∀ x cookie looper s', s.exec L (.deadBinderDone x d cookie looper) = some s' →
      (s.log d).clear = 1 → (s'.log d).clearDone = 1) ∧
    (∃! w, FreedBy s d w) ∧
    (s.log d).freed = (if s.death d = none then 1 else 0) ∧
    (s.released (s.log d).proc = true → s.death d = none ∨
      ∃ op s', (op = .freeRef d ∨ op = .releaseWork d) ∧ s.exec L op = some s' ∧ s'.death d = none) ∧
    (∀ r R D, s.ref r = some R → R.death = some d → s.death d = some D →
      (s.log d).died = s.dead R.node ∧ (D.list ≠ none → D.type = .deadBinder) ∧
        (Pending s R.node r → D.list = none)) := by
  have hinv := inv_of_reach h
  obtain ⟨ht, o, ho, hok⟩ := id hinv
  have hw : o d ≠ .nobody := by
    intro hw
    have := hok d
    rw [hw] at this
    exact absurd hd (Nat.not_lt.mpr this.1)
  refine ⟨(hok d).told hw, (hok d).cleared hw, fun x cookie looper s' he hc => hinv.answered hc he,
    ⟨o d, (hok d).freedBy ho rfl hd, fun w hfree => hfree.eq ho (hok d) hd⟩, (hok d).freed_eq hw,
    hinv.freeable, fun r R D hR hdR hD => ?_⟩
  obtain ⟨D', hD', -, -, hdied, -, hlive⟩ := ho.attached hok hR hdR
  rw [hD] at hD'
  cases hD'
  refine ⟨hdied, fun hl => ?_, fun hp => (hlive (.inr hp)).2⟩
  obtain ⟨l, hl⟩ := Option.ne_none_iff_exists'.mp hl
  rcases (hok d).onList hD hl with ⟨htype, -⟩ | ⟨hw, -⟩
  · exact htype
  · rw [ho.ref hR hdR] at hw
    cases hw

/-- Every thread is a process of its own. -/
def oneThreadEach : Layout := ⟨id⟩

/-- The process 1 asks for the death of the node 0, which dies; the request is cleared before the
notification is acknowledged. -/
def clearedLate : List DeathOp :=
  [.newRef 0 1 0, .request 1 0 7, .nodeRelease 0, .notify 0, .notify 0, .read 1 0,
    .clear 1 0 7 false, .deadBinderDone 1 0 7 false]

/-- The state after these. -/
def afterDone : DeathState :=
  (Sys.execIf (DeathState.exec oneThreadEach) (fun _ _ => True) start clearedLate).get (by decide)

theorem deaths_afterDone : (deathSys oneThreadEach).Reach afterDone ∧ 0 < afterDone.nextDeath ∧
    (afterDone.log 0).died = true ∧ (afterDone.log 0).deadBinder = 1 ∧
    (afterDone.log 0).clearDone = 1 ∧ ∃! w, FreedBy afterDone 0 w := by
  have hr : (deathSys oneThreadEach).Reach afterDone :=
    Sys.ReachIf.execIf (.init rfl) (Option.some_get _).symm
  exact ⟨hr, by decide, rfl, rfl, rfl, (deaths_sound hr (by decide)).2.2.2.1⟩

end Redroid.Binder.Death
