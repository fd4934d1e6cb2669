import Redroid.Ashmem.Purge

/-!
# How much `ashmem_shrink_scan` purges

`sc->nr_to_scan` is a number of pages, as `lru_count` is, and the loop counts it down by one for each
range.

* `shortest`: the length of the shortest prefix of the LRU list that has so many pages.
* `shrinkSys`: a call of `ashmem_shrink_scan` with no concurrent operation; it comes to its end.
* `Enough`: the ranges before the last one purged have fewer pages than asked for.
* `shrinkSys_purges_iff`: it purges the shortest prefix if and only if this is so.
-/

namespace Redroid.Ashmem

/-- The length of the shortest prefix whose sum is at least `nr`, or of the whole list. -/
def shortest : List Nat → Nat → Nat
  | [], _ => 0
  | p :: ps, nr => if nr ≤ p then 1 else shortest ps (nr - p) + 1

/-- The ranges that `nr` rounds purge: all but the last have fewer than `nr` pages, and all of them have
`nr` if there are more. The second holds where each range has a page; a request past the end of an area
puts one on the list that has none. -/
def Enough (pages : List Nat) (nr : Nat) : Prop :=
  (pages.take (min nr pages.length - 1)).sum < nr ∧
    (pages.length ≤ nr ∨ nr ≤ (pages.take nr).sum)

/-- A call of `ashmem_shrink_scan` by `t` in the state `s`, with no concurrent operation. -/
def shrinkSys (v : Nat) (s : Conc) (t : Tid) (nr : Nat) : Sys Conc Act where
  init s' := Step v s (.shrink t nr) s'
  step s₁ x s₂ := x.scanner = some t ∧ Step v s₁ x s₂

/-! ## The shortest prefix -/

theorem shortest_le (ps : List Nat) (nr : Nat) : shortest ps nr ≤ ps.length := by
  induction ps generalizing nr with
  | nil => exact Nat.le_refl 0
  | cons p ps ih =>
    rw [shortest, List.length_cons]
    split
    · omega
    · exact Nat.succ_le_succ (ih _)

/-- A prefix is the shortest one if it has `nr` pages or is the whole list, and without its last range
has fewer. -/
theorem shortest_eq_iff (ps : List Nat) {nr m : Nat} (hpos : 0 < nr) (hm : m ≤ ps.length) :
    shortest ps nr = m ↔
      (ps.take (m - 1)).sum < nr ∧ (m = ps.length ∨ 0 < m ∧ nr ≤ (ps.take m).sum) := by
  induction ps generalizing nr m with
  | nil =>
    obtain rfl := Nat.le_zero.mp hm
    simp [shortest, hpos]
  | cons p ps ih =>
    rw [shortest]
    cases m with
    | zero =>
      refine iff_of_false ?_ (by simp)
      split <;> omega
    | succ m =>
      rw [List.length_cons] at hm ⊢
      by_cases hp : nr ≤ p
      · rw [if_pos hp]
        cases m with
        | zero => simp [hpos, hp]
        | succ m =>
          refine iff_of_false (by omega) fun h => ?_
          simp only [Nat.add_sub_cancel, List.take_succ_cons, List.sum_cons] at h
          omega
      · rw [if_neg hp, Nat.add_right_cancel_iff, ih (by omega) (by omega)]
        cases m with
        | zero =>
          simp only [Nat.zero_sub, List.take_zero, List.sum_nil, zero_add,
            Nat.sub_self, List.take_succ_cons, List.sum_cons]
          omega
        | succ m =>
          simp only [Nat.add_sub_cancel, List.take_succ_cons, List.sum_cons]
          omega

theorem shortest_eq_min_iff (ps : List Nat) {nr : Nat} (hpos : 0 < nr) :
    shortest ps nr = min nr ps.length ↔ Enough ps nr := by
  rw [shortest_eq_iff ps hpos (Nat.min_le_right ..), Enough]
  refine and_congr_right fun _ => ?_
  by_cases hle : ps.length ≤ nr
  · rw [Nat.min_eq_right hle]
    simp [hle]
  · rw [Nat.min_eq_left (by omega)]
    have hne : nr ≠ ps.length := by omega
    simp [hle, hne, hpos]

/-! ## The loop of `ashmem_shrink_scan` -/

/-- While `t` purges ranges of the LRU list `l`, in at most `nr` rounds: the ranges of the rounds so
far are gone. -/
structure Scanning (t : Tid) (l : List RangeRef) (nr : Nat) (s : Conc) : Prop where
  others : ∀ u, u ≠ t → s.pc u = .idle
  left : match s.pc t with
    | .idle => s.shared.lru.list = l.drop (min nr l.length)
    | .scan n => ∃ k, k + n = nr ∧ 0 < n ∧ s.shared.lru.list = l.drop k
    | .punch n _ _ _ | .punched n | .relock n =>
      ∃ k, k + n = nr ∧ 0 < n ∧ k < l.length ∧ s.shared.lru.list = l.drop (k + 1)
    | _ => False

section Scan

variable {v nr : Nat} {s s₀ s' : Conc} {x : Act} {t : Tid} {l : List RangeRef}

/-- Every state of a run keeps the accounting of the LRU list. -/
theorem concSys_lruInv (h : (concSys v).Reach s) : LruInv s := by
  obtain ⟨c, hc, rfl⟩ := scanSys_of_reach h
  exact (scansInv_of_reach hc).lru

theorem concSys_ctl (h : (concSys v).Reach s) : Ctl s :=
  h.inv (fun s hs => by
    cases hs
    exact ⟨by simp [Conc.start, Pc.holds], by simp [Conc.start, Pc.inFlight], by simp [Conc.start]⟩)
    fun _ _ _ hi hst => hi.step hst

theorem Scanning.step (h : Scanning t l nr s) (hlru : LruInv s) (hnr : nr < 2 ^ 64)
    (hx : x.scanner = some t) (hst : Step v s x s') :
    Scanning t l nr s' := by
  have hothers : ∀ c : Pc, ∀ u, u ≠ t → Function.update s.pc t c u = .idle := fun c u hu => by
    rw [Function.update_of_ne hu]
    exact h.others u hu
  have hleft := h.left
  cases hst with
  | takeNone u hp hl =>
    cases hx
    rw [hp] at hleft
    obtain ⟨k, hk, -, hd⟩ := hleft
    refine ⟨hothers _, ?_⟩
    have hlen : l.length ≤ k := List.drop_eq_nil_iff.mp (hd ▸ hl)
    simp only [Conc.goto_pc, Function.update_self, Conc.goto_shared]
    rw [hl, Nat.min_eq_right (by omega), List.drop_length]
  | @take u n ref rest asma range f hp hl hde hf =>
    cases hx
    rw [hp] at hleft
    obtain ⟨k, hk, hn, hd⟩ := hleft
    refine ⟨hothers _, ?_⟩
    have hrest : (s.shared.purge ref.asma asma range).lru.list = rest := by
      obtain ⟨asma₁, r₁, hd₁, -, -, hre, -⟩ := hlru.deref (by simp [hl] : ref ∈ s.shared.lru.list)
      rw [hde] at hd₁
      obtain ⟨rfl, rfl⟩ : asma = asma₁ ∧ range = r₁ := by simpa using hd₁
      show s.shared.lru.list.erase range.ref = rest
      rw [hl, hre, List.erase_cons_head]
    have hlen : k < l.length := by
      by_contra hcon
      rw [hl, List.drop_eq_nil_of_le (by omega)] at hd
      cases hd
    simp only [Conc.goto_pc, Function.update_self, hrest]
    refine ⟨k, hk, hn, hlen, ?_⟩
    rw [← List.tail_drop, ← hd, hl, List.tail_cons]
  | punchPage u p hp hh =>
    cases hx
    exact ⟨h.others, hleft⟩
  | punchEnd u hp =>
    cases hx
    rw [hp] at hleft
    exact ⟨hothers _, by simpa using hleft⟩
  | decInflight u hp =>
    cases hx
    rw [hp] at hleft
    exact ⟨hothers _, by simpa using hleft⟩
  | relock u hp hm hn =>
    cases hx
    rw [hp] at hleft
    obtain ⟨k, hk, hpos, -, hd⟩ := hleft
    refine ⟨hothers _, ?_⟩
    simp only [Conc.goto_pc, Function.update_self, Conc.goto_shared]
    exact ⟨k + 1, by omega, by omega, hd⟩
  | relockDone u hp hm hn =>
    cases hx
    rw [hp] at hleft
    obtain ⟨k, hk, hpos, hlen, hd⟩ := hleft
    refine ⟨hothers _, ?_⟩
    simp only [Conc.goto_pc, Function.update_self, Conc.goto_shared]
    have hkn : k + 1 = nr := by omega
    rw [hd, Nat.min_eq_left (by omega), hkn]
  | _ => cases hx

theorem shrinkSys_reach (h₀ : (concSys v).Reach s₀) (h : (shrinkSys v s₀ t nr).Reach s) :
    (concSys v).Reach s := by
  induction h with
  | init hi => exact h₀.next (a := Act.shrink t nr) hi
  | step _ _ hst ih => exact ih.next hst.2

theorem shrinkSys_scanning (h₀ : (concSys v).Reach s₀) (hidle : ∀ u, s₀.pc u = .idle)
    (hpos : 1 ≤ nr) (hnr : nr < 2 ^ 64) (h : (shrinkSys v s₀ t nr).Reach s) :
    Scanning t s₀.shared.lru.list nr s := by
  induction h with
  | init hi =>
    cases hi with
    | shrink _ _ hp hm =>
      refine ⟨fun u hu => ?_, ?_⟩
      · simp [hu, hidle]
      · simp only [Conc.goto_pc, Function.update_self, Conc.goto_shared]
        exact ⟨0, Nat.zero_add nr, hpos, rfl⟩
  | step hr _ hst ih =>
    exact ih.step (concSys_lruInv (shrinkSys_reach h₀ hr)) hnr hst.1 hst.2

theorem shrinkSys_next (h : (shrinkSys v s₀ t nr).Reach s) (hst : Step v s x s')
    (hx : x.scanner = some t) : (shrinkSys v s₀ t nr).Reach s' :=
  h.next ⟨hx, hst⟩

/-- A call of `ashmem_shrink_scan` with no concurrent operation comes to its end. -/
theorem shrinkSys_completes (h₀ : (concSys v).Reach s₀) (hidle : ∀ u, s₀.pc u = .idle)
    (hpos : 1 ≤ nr) (hnr : nr < 2 ^ 64) : ∃ s', (shrinkSys v s₀ t nr).Reach s' ∧ s'.pc t = .idle := by
  -- each round decreases `nr_to_scan`
  have hloop : ∀ n s, (shrinkSys v s₀ t nr).Reach s → s.pc t = .scan n → 0 < n → n < 2 ^ 64 →
      ∃ s', (shrinkSys v s₀ t nr).Reach s' ∧ s'.pc t = .idle := by
    intro n
    induction n with
    | zero => exact fun s _ _ hpos => absurd hpos (Nat.lt_irrefl 0)
    | succ n ih =>
      intro s h hp _ hlt
      obtain ⟨s₁, hst⟩ := (concSys_lruInv (shrinkSys_reach h₀ h)).take_possible hp
      have h₁ := shrinkSys_next h hst rfl
      cases hst with
      | takeNone _ hp' hl => exact ⟨_, h₁, Function.update_self ..⟩
      | @take _ nr' ref rest asma r f hp' hl hde hf =>
        rw [hp] at hp'
        cases hp'
        have h₂ := shrinkSys_next h₁ (.punchEnd t (Function.update_self ..)) rfl
        have h₃ := shrinkSys_next h₂ (.decInflight t (goto_pc_self _ t (.punched (n + 1)))) rfl
        have hm : n % 2 ^ 64 = n := Nat.mod_eq_of_lt (by omega)
        have hmod : (n + 1 + (2 ^ 64 - 1)) % 2 ^ 64 = n := by
          rw [← hm]
          omega
        by_cases hn : n = 0
        · have h₄ := shrinkSys_next h₃ (.relockDone t (goto_pc_self _ t (.relock (n + 1))) rfl
            (hmod.trans hn)) rfl
          exact ⟨_, h₄, Function.update_self ..⟩
        · have h₄ := shrinkSys_next h₃ (.relock t (goto_pc_self _ t (.relock (n + 1))) rfl
            fun hz => hn (hmod ▸ hz)) rfl
          exact ih _ h₄ ((goto_pc_self ..).trans (congrArg Pc.scan hmod)) (Nat.pos_of_ne_zero hn)
            (by omega)
  have hmutex : s₀.mutex = none := by
    cases hm : s₀.mutex with
    | none => rfl
    | some u =>
      have := ((concSys_ctl h₀).mutex u).mpr hm
      rw [hidle u] at this
      cases this
  exact hloop _ _ (.init (.shrink t nr (hidle t) hmutex)) (Function.update_self ..) hpos hnr

/-- **How much the shrinker purges.** A call of `ashmem_shrink_scan` with no concurrent operation
comes to its end, and it purges the shortest prefix of the LRU list that has `nr_to_scan` pages (or
the whole list) if and only if the ranges before the last one purged have fewer pages, and the
ranges purged have as many, or are all. -/
theorem shrinkSys_purges_iff (h : (concSys v).Reach s) (hidle : ∀ u, s.pc u = .idle)
    (hpos : 1 ≤ nr) (hnr : nr < 2 ^ 64) :
    ((∃ s', (shrinkSys v s t nr).Reach s' ∧ s'.pc t = .idle) ∧
      ∀ s', (shrinkSys v s t nr).Reach s' → s'.pc t = .idle →
        s'.shared.lru.list =
          s.shared.lru.list.drop (shortest (s.shared.lru.list.map s.shared.pages) nr)) ↔
      Enough (s.shared.lru.list.map s.shared.pages) nr := by
  rw [← shortest_eq_min_iff _ hpos, List.length_map]
  obtain ⟨s₁, h₁, hd₁⟩ := shrinkSys_completes (t := t) h hidle hpos hnr
  have hend : ∀ s', (shrinkSys v s t nr).Reach s' → s'.pc t = .idle →
      s'.shared.lru.list = s.shared.lru.list.drop (min nr s.shared.lru.list.length) := by
    intro s' hs' hd
    have hleft := (shrinkSys_scanning h hidle hpos hnr hs').left
    rwa [hd] at hleft
  have hle := shortest_le (s.shared.lru.list.map s.shared.pages) nr
  rw [List.length_map] at hle
  constructor
  · intro ⟨_, hall⟩
    have hdrop := congrArg List.length ((hend s₁ h₁ hd₁).symm.trans (hall s₁ h₁ hd₁))
    rw [List.length_drop, List.length_drop] at hdrop
    omega
  · intro heq
    refine ⟨⟨s₁, h₁, hd₁⟩, fun s' hs' hd => ?_⟩
    rw [heq]
    exact hend s' hs' hd

end Scan

/-- An area of three pages with its backing file. -/
def threePages : AshmemArea :=
  { ashmemOpen 0 with size := 12288, file := some ⟨"dev/ashmem", 12288, 0⟩ }

/-- The third page of `threePages`. -/
def thirdPage : AshmemPin := ⟨8192, 4096⟩

theorem pinInterval_threePages (l : List AshmemRange) :
    pinInterval { threePages with unpinnedList := l } bothPages = some (0, 1) ∧
      pinInterval { threePages with unpinnedList := l } thirdPage = some (2, 2) :=
  (by decide : pinInterval { threePages with unpinnedList := [] } bothPages = some (0, 1) ∧
    pinInterval { threePages with unpinnedList := [] } thirdPage = some (2, 2))

/-- Unpin the first two pages of three, and then the third. -/
theorem reach_threePages : ∃ s, (concSys (kernelVersion 6 6 0)).Reach s ∧
    (∀ u, s.pc u = .idle) ∧ s.shared.lru.list = [⟨0, 0⟩, ⟨0, 1⟩] ∧
    s.shared.lru.list.map s.shared.pages = [2, 1] := by
  have hun : ashmemUnpinFrom 0 [] 0 1 ashmemNotPurged ⟨some 0, ⟨[], 0⟩⟩ =
      some ([⟨0, 0, 0, 1, 0⟩], ⟨none, ⟨[⟨0, 0⟩], 2⟩⟩) := by rw [ashmemUnpinFrom]; rfl
  have h1 := reach_run (t := 0) (a := 0) .unpin bothPages threePages (.ok 0) (C := fun _ _ => True)
    (fun _ _ _ => trivial) (S := Shared.setList _ 0 threePages [⟨0, 0, 0, 1, 0⟩]
      ⟨none, ⟨[⟨0, 0⟩], 2⟩⟩)
    (reach_mapped 12288 threePages (fun _ _ _ => trivial) rfl (by decide)) rfl rfl rfl rfl (by
      have hi : pinInterval threePages bothPages = some (0, 1) := (pinInterval_threePages []).1
      unfold ashmemPinUnpin
      rw [if_neg (by decide), hi]
      simp only [Shared.unpin, ashmemUnpin]
      show Option.map _ (((ashmemUnpinFrom 0 [] 0 1 ashmemNotPurged
        ⟨some 0, ⟨[], 0⟩⟩).bind _).bind _) = _
      rw [hun]
      rfl) trivial
  have hun2 : ashmemUnpinFrom 0 [⟨0, 0, 0, 1, 0⟩] 2 2 ashmemNotPurged ⟨some 1, ⟨[⟨0, 0⟩], 2⟩⟩ =
      some ([⟨1, 0, 2, 2, 0⟩, ⟨0, 0, 0, 1, 0⟩], ⟨none, ⟨[⟨0, 0⟩, ⟨0, 1⟩], 3⟩⟩) := by
    rw [ashmemUnpinFrom]
    rfl
  have h2 := reach_run (t := 0) (a := 0) .unpin thirdPage
    { threePages with unpinnedList := [⟨0, 0, 0, 1, 0⟩] } (.ok 0) (C := fun _ _ => True)
    (fun _ _ _ => trivial) (S := Shared.setList _ 0 threePages [⟨1, 0, 2, 2, 0⟩, ⟨0, 0, 0, 1, 0⟩]
      ⟨none, ⟨[⟨0, 0⟩, ⟨0, 1⟩], 3⟩⟩) h1 rfl rfl rfl rfl (by
      unfold ashmemPinUnpin
      rw [if_neg (by decide), (pinInterval_threePages _).2]
      simp only [Shared.unpin, ashmemUnpin]
      show Option.map _ (((ashmemUnpinFrom 0 [⟨0, 0, 0, 1, 0⟩] 2 2 ashmemNotPurged
        ⟨some 1, ⟨[⟨0, 0⟩], 2⟩⟩).bind _).bind _) = _
      rw [hun2]
      rfl) trivial
  refine ⟨_, h2.reach, fun u => ?_, rfl, rfl⟩
  by_cases h0 : u = 0
  · subst h0
    rfl
  · simp [Conc.requested_ctl.1, Conc.call, h0, Conc.start]

/-- A request for one page purges the range of two pages, and leaves the other one. -/
theorem shrinkSys_purges_threePages : ∃ s s', (concSys (kernelVersion 6 6 0)).Reach s ∧
    s.shared.lru.list.map s.shared.pages = [2, 1] ∧
    (shrinkSys (kernelVersion 6 6 0) s 1 1).Reach s' ∧ s'.pc 1 = .idle ∧
    s'.shared.lru.list = [⟨0, 1⟩] := by
  obtain ⟨s, h, hidle, hl, hpages⟩ := reach_threePages
  obtain ⟨⟨s', hs', hidle'⟩, hall⟩ :=
    (shrinkSys_purges_iff (t := 1) h hidle (show 1 ≤ 1 by decide) (by decide)).mpr
      (by rw [hpages]; exact ⟨by decide, by decide⟩)
  refine ⟨s, s', h, hpages, hs', hidle', ?_⟩
  rw [hall s' hs' hidle', hpages, hl]
  rfl

/-- A request for two pages purges a range of two pages and one more. -/
theorem shrinkSys_purges_more :
    ¬ ∀ v s t nr, (concSys v).Reach s → (∀ u, s.pc u = .idle) → 1 ≤ nr → nr < 2 ^ 64 →
      ∀ s', (shrinkSys v s t nr).Reach s' → s'.pc t = .idle →
        s'.shared.lru.list =
          s.shared.lru.list.drop (shortest (s.shared.lru.list.map s.shared.pages) nr) := by
  intro hall
  obtain ⟨s, h, hidle, hl, hpages⟩ := reach_threePages
  obtain ⟨s', hs', hd⟩ := shrinkSys_completes (t := 1) h hidle (show 1 ≤ 2 by decide) (by decide)
  have hleft := (shrinkSys_scanning h hidle (by decide) (by decide) hs').left
  rw [hd] at hleft
  have hshort := hall _ s 1 2 h hidle (by decide) (by decide) s' hs' hd
  rw [hleft, hpages, hl] at hshort
  exact absurd hshort (by decide)

end Redroid.Ashmem
