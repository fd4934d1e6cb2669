import Redroid.Ashmem.Lru

/-!
# What `ASHMEM_PURGE_ALL_CACHES` can purge

A page that becomes unpinned is to stay within reach of the shrinker until a hole is punched over
it: in a range on the LRU list, or in a hole in flight. `ashmem_unpin` keeps one `purged` flag for
the range it merges, so a page that is merged with a purged range gets off the LRU list without a
hole.

* `ashmemUnpinFrom_apart`: what `ashmem_unpin` does to the ranges that the request does not meet,
  and to the merged range if none of the ranges it meets is purged.
* `Pending`: every unpinned page without a hole is within reach of the shrinker.
* `purgeAllSys`: `ASHMEM_PURGE_ALL_CACHES` with no concurrent operation.
* `concSys_purgeable`: in every run in which no request mixes pages of purged ranges with others,
  `Pending` holds, and after `ASHMEM_PURGE_ALL_CACHES` a hole was punched over every unpinned page.
-/

namespace Redroid.Ashmem

/-! ## `ashmem_unpin` and the flag of the merged range -/

section Unpin

variable {a : AreaId} {l l' : List AshmemRange} {s e purged : Nat} {st st' : Pinning}

/-- A range that shares no page with a range `r` nor with `s..e` shares none with their union. -/
theorem apart_union {x r : AshmemRange} (hx : x.pgstart ≤ x.pgend) (hs : r.pgstart ≤ e)
    (he : s ≤ r.pgend) (hxr : x.pgend < r.pgstart ∨ r.pgend < x.pgstart)
    (hxs : x.pgend < s ∨ e < x.pgstart) :
    x.pgend < min r.pgstart s ∨ max r.pgend e < x.pgstart := by
  omega

/-- Two ranges of a list share no page. -/
theorem Desc.apart {x r : AshmemRange} (hd : Desc AshmemRange.pgstart AshmemRange.pgend l)
    (hx : x ∈ l) (hr : r ∈ l) (hne : x ≠ r) : x.pgend < r.pgstart ∨ r.pgend < x.pgstart := by
  by_contra hcon
  push Not at hcon
  have h1 := hd.nonempty x hx
  have h2 := hd.nonempty r hr
  exact hne (hd.eq_of_common hx hr (p := max x.pgstart r.pgstart) (by omega) (by omega) (by omega)
    (by omega))

/-- The ranges that share no page with `s..e` stay. If the others are not purged, one range that is
not purged takes their place. -/
theorem ashmemUnpinFrom_apart (hd : Desc AshmemRange.pgstart AshmemRange.pgend l) (hn : l.Nodup)
    (hse : s ≤ e) (h : ashmemUnpinFrom a l s e purged st = some (l', st')) :
    (∀ r ∈ l, r.pgend < s ∨ e < r.pgstart → r ∈ l') ∧
    (purged = ashmemNotPurged →
      (∀ r ∈ l, r.pgstart ≤ e → s ≤ r.pgend → r.purged = ashmemNotPurged) →
      ∃ r' ∈ l', r'.purged = ashmemNotPurged ∧ r'.pgstart ≤ s ∧ e ≤ r'.pgend ∧
        ∀ r ∈ l, r.pgstart ≤ e → s ≤ r.pgend → r'.pgstart ≤ r.pgstart ∧ r.pgend ≤ r'.pgend) := by
  induction hlen : l.length using Nat.strong_induction_on generalizing l s e purged st with
  | _ n ih =>
  have hscan := unpinScan_spec hd hse
  unfold ashmemUnpinFrom at h
  split at h <;> rename_i hs <;> rw [hs] at hscan
  · cases h
    obtain ⟨r, hr, hrs, hre⟩ := hscan
    refine ⟨fun x hx _ => hx, fun _ hp => ⟨r, hr, hp r hr (by omega) (by omega), hrs, hre, ?_⟩⟩
    intro x hx h1 h2
    have hxr : x = r := by
      have := hd.nonempty x hx
      exact hd.eq_of_common hx hr (p := max x.pgstart s) (by omega) (by omega) (by omega) (by omega)
    rw [hxr]
    exact ⟨Nat.le_refl _, Nat.le_refl _⟩
  · rename_i b r c
    obtain ⟨rfl, hrs, hre⟩ := hscan
    have hsub : (b ++ c).Sublist (b ++ r :: c) :=
      (List.Sublist.refl b).append (List.sublist_cons_self r c)
    have hrn : r ∉ b ++ c := (List.nodup_cons.mp (List.nodup_middle.mp hn)).1
    have hsplit : ∀ x ∈ b ++ r :: c, x = r ∨ x ∈ b ++ c := fun x hx => by
      simpa only [List.mem_append, List.mem_cons, or_left_comm] using hx
    -- a range of the rest that meets the union meets the request
    have hmeet : ∀ x ∈ b ++ c, x.pgend < s ∨ e < x.pgstart →
        x.pgend < min r.pgstart s ∨ max r.pgend e < x.pgstart := fun x hx hxs =>
      apart_union (hd.nonempty x (hsub.subset hx)) hrs hre
        (Desc.apart hd (hsub.subset hx) (by simp) fun he => hrn (he ▸ hx)) hxs
    obtain ⟨hkeep, hmerge⟩ := ih (b ++ c).length (by rw [← hlen]; simp) (hd.sublist hsub)
      (hn.sublist hsub) (by omega) h rfl
    refine ⟨fun x hx hxs => ?_, fun hp hall => ?_⟩
    · rcases hsplit x hx with rfl | hx'
      · omega
      · exact hkeep x hx' (hmeet x hx' hxs)
    · have hr0 := hall r (by simp) hrs hre
      obtain ⟨r', hr', hp', h1, h2, h3⟩ := hmerge (by rw [hp, hr0]; rfl) fun x hx hx1 hx2 => by
        refine hall x (hsub.subset hx) ?_ ?_
        · by_contra hcon
          have := hmeet x hx (.inr (by omega))
          omega
        · by_contra hcon
          have := hmeet x hx (.inl (by omega))
          omega
      refine ⟨r', hr', hp', by omega, by omega, fun x hx hx1 hx2 => ?_⟩
      rcases hsplit x hx with rfl | hx'
      · omega
      · exact h3 x hx' (by omega) (by omega)
  · rename_i b c
    obtain ⟨rfl, hb, hc⟩ := hscan
    obtain ⟨⟨new, st₁⟩, halloc, h⟩ := Option.bind_eq_some_iff.mp h
    cases h
    have hnew : new.pgstart = s ∧ new.pgend = e ∧ new.purged = purged := by
      unfold rangeAlloc at halloc
      split at halloc
      · cases halloc
      · cases halloc
        exact ⟨rfl, rfl, rfl⟩
    have hin : ∀ x ∈ b ++ c, x ∈ b ++ new :: c := fun x hx => by
      simp only [List.mem_append, List.mem_cons] at hx ⊢
      exact hx.imp_right .inr
    refine ⟨fun x hx _ => hin x hx, fun hp _ => ⟨new, by simp, by rw [hnew.2.2, hp], by omega,
      by omega, fun x hx hx1 hx2 => ?_⟩⟩
    rcases List.mem_append.mp hx with hx | hx
    · have := hb x hx
      omega
    · have := hc x hx
      omega

end Unpin

/-! ## The pages within reach of the shrinker -/

/-- Page `p` is in a range on the LRU list. -/
def OnLru (s : Conc) (a : AreaId) (p : Nat) : Prop :=
  ∃ asma ∈ s.shared.areas a, ∃ r ∈ asma.unpinnedList, r.ref ∈ s.shared.lru.list ∧
    r.pgstart ≤ p ∧ p ≤ r.pgend

/-- A hole over page `p` is in flight. -/
def InFlight (s : Conc) (a : AreaId) (p : Nat) : Prop :=
  ∃ t nr start stop, s.pc t = .punch nr a start stop ∧ inHole start stop p

/-- Every unpinned page without a hole is on the LRU list, or under a hole in flight. -/
def Pending (s : Conc) : Prop :=
  ∀ a, (s.shared.areas a).isSome → ∀ p, s.unpinned a p → ¬ s.punched a p →
    OnLru s a p ∨ InFlight s a p

/-- `fallocate` punches the whole hole before it returns. -/
def WholeHole (s : Conc) : Act → Prop
  | .punchEnd t => ∀ nr a start stop, s.pc t = .punch nr a start stop →
    ∀ p, inHole start stop p → s.punched a p
  | _ => True

/-- The body of an ioctl runs on an interval of pages below `SIZE_MAX`, and the pages of an unpin
are all in ranges that are marked purged, or none of them is. -/
def Apart (s : Conc) : Act → Prop
  | .run t => ∀ a cmd pin range, s.pc t = .body a cmd pin range →
    ∀ asma ∈ s.shared.areas a, ∀ i ∈ pinInterval asma pin, i.1 ≤ i.2 ∧ i.2 < 2 ^ 64 - 1 ∧
      (cmd = .unpin →
        Disjoint asma.purgedPages (Set.Icc i.1 i.2) ∨ Set.Icc i.1 i.2 ⊆ asma.purgedPages)
  | _ => True

/-- The ranges have no page from `2 ^ 20` on, and every unpinned page without a hole is in a range
that is not purged, or under a hole in flight. -/
structure Kept (s : Conc) : Prop where
  low : ∀ a, ∀ asma ∈ s.shared.areas a, ∀ r ∈ asma.unpinnedList, r.pgend < 2 ^ 20
  pending : ∀ a, ∀ asma ∈ s.shared.areas a, ∀ p, s.unpinned a p → ¬ s.punched a p →
    (∃ r ∈ asma.unpinnedList, r.purged = ashmemNotPurged ∧ r.pgstart ≤ p ∧ p ≤ r.pgend) ∨
      InFlight s a p

section Kept

variable {v : Nat} {s s' : Conc} {x : Act} {t : Tid} {a : AreaId} {asma : AshmemArea}

/-- A step that changes no list: an area is new, or has the list it had. -/
theorem Kept.keep (h : Kept s)
    (hareas : ∀ b, ∀ asma' ∈ s'.shared.areas b,
      (∃ asma ∈ s.shared.areas b, asma.unpinnedList = asma'.unpinnedList) ∨
        (asma'.unpinnedList = [] ∧ ∀ p, ¬ s'.unpinned b p))
    (hU : ∀ b p, s'.unpinned b p → s.unpinned b p)
    (hP : ∀ b p, s.punched b p → s'.punched b p)
    (hhole : ∀ b p, InFlight s b p → InFlight s' b p ∨ s'.punched b p) : Kept s' := by
  refine ⟨fun b asma' hb r hr => ?_, fun b asma' hb p hu hx => ?_⟩
  · rcases hareas b asma' hb with ⟨asma, ha, hl⟩ | ⟨hl, -⟩
    · exact h.low b asma ha r (hl ▸ hr)
    · rw [hl] at hr
      cases hr
  · rcases hareas b asma' hb with ⟨asma, ha, hl⟩ | ⟨-, hnone⟩
    · rcases h.pending b asma ha p (hU b p hu) fun hp => hx (hP b p hp) with hlive | hfl
      · exact .inl (hl ▸ hlive)
      · exact .inr ((hhole b p hfl).resolve_right hx)
    · exact absurd hu (hnone p)

/-- A step of `t` to the place `c`, not out of a hole. -/
theorem Kept.goto (h : Kept s) {c : Pc} (hp : ∀ nr a start stop, s.pc t ≠ .punch nr a start stop)
    (hpc : s'.pc = Function.update s.pc t c) (hs : s'.shared = s.shared)
    (hU : s'.unpinned = s.unpinned) (hP : s'.punched = s.punched) : Kept s' := by
  refine h.keep (fun b asma hb => .inl ⟨asma, hs ▸ hb, rfl⟩) (fun b p hu => hU ▸ hu)
    (fun b p hx => hP ▸ hx) fun b p hfl => .inl ?_
  obtain ⟨u, nr, start, stop, hu, hin⟩ := hfl
  have hut : u ≠ t := fun hut => hp nr b start stop (hut ▸ hu)
  exact ⟨u, nr, start, stop, by rw [hpc, Function.update_of_ne hut]; exact hu, hin⟩

/-- The pages of a range below `2 ^ 20` are those of its hole. -/
theorem inHole_of_range {r : AshmemRange} {p : Nat} (hlow : r.pgend < 2 ^ 20)
    (h1 : r.pgstart ≤ p) (h2 : p ≤ r.pgend) :
    inHole (r.pgstart * pageSize % 2 ^ 64) ((r.pgend + 1) % 2 ^ 64 * pageSize % 2 ^ 64) p := by
  unfold inHole pageSize
  omega

theorem Kept.take (h : Kept s) (hd : Data s) {nr : Nat} {ref : RangeRef} {rest : List RangeRef}
    {range : AshmemRange} (hp : s.pc t = .scan nr) (hl : s.shared.lru.list = ref :: rest)
    (hde : s.shared.deref ref = some (asma, range)) :
    Kept { s.goto t (.punch nr ref.asma (range.pgstart * pageSize % 2 ^ 64)
        ((range.pgend + 1) % 2 ^ 64 * pageSize % 2 ^ 64)) with
      shared := s.shared.purge ref.asma asma range
      inflight := s.inflight + 1
      mutex := none } := by
  obtain ⟨asma₁, r₁, hd₁, ha, hr, -, -⟩ := hd.ok.deref ref (by simp [hl])
  rw [hde] at hd₁
  obtain ⟨rfl, rfl⟩ : asma = asma₁ ∧ range = r₁ := by simpa using hd₁
  have hlow := h.low _ asma ha
  have hids := (hd.ok.list _ asma ha).ids
  refine ⟨fun b asma' hb r hrm => ?_, fun b asma' hb p hu hx => ?_⟩
  · rcases Shared.mem_setList.mp hb with ⟨rfl, rfl⟩ | ⟨-, hb⟩
    · obtain ⟨y, hy, rfl⟩ := List.mem_map.mp hrm
      split <;> exact hlow y hy
    · exact h.low b asma' hb r hrm
  · -- the hole of another thread stays in flight
    have hfl : InFlight s b p → InFlight { s.goto t (.punch nr ref.asma
        (range.pgstart * pageSize % 2 ^ 64) ((range.pgend + 1) % 2 ^ 64 * pageSize % 2 ^ 64)) with
          shared := s.shared.purge ref.asma asma range
          inflight := s.inflight + 1
          mutex := none } b p := by
      rintro ⟨u, nr', start, stop, hu, hin⟩
      have hut : u ≠ t := fun hut => by
        rw [hut, hp] at hu
        cases hu
      exact ⟨u, nr', start, stop, by simp [hut, hu], hin⟩
    rcases Shared.mem_setList.mp hb with ⟨rfl, rfl⟩ | ⟨-, hb⟩
    · rcases h.pending _ asma ha p hu hx with ⟨r, hrm, hrp, h1, h2⟩ | hin
      · by_cases hrr : r.id = range.id
        · have hre : r = range := List.inj_on_of_nodup_map hids hrm hr hrr
          subst hre
          exact .inr ⟨t, nr, _, _, Function.update_self .., inHole_of_range (hlow r hrm) h1 h2⟩
        · refine .inl ⟨r, List.mem_map.mpr ⟨r, hrm, if_neg hrr⟩, hrp, h1, h2⟩
      · exact .inr (hfl hin)
    · exact (h.pending b asma' hb p hu hx).imp_right hfl

/-- The body of an ioctl of `t` replaces the list of `a`; no hole is in flight. -/
theorem Kept.setList (h : Kept s) {l' : List AshmemRange} {st' : Pinning}
    (hfl : ∀ u, (s.pc u).inFlight = false) (hs : s'.shared = s.shared.setList a asma l' st')
    (hlow : ∀ r ∈ l', r.pgend < 2 ^ 20)
    (hlive : ∀ p, s'.unpinned a p → ¬ s'.punched a p →
      ∃ r ∈ l', r.purged = ashmemNotPurged ∧ r.pgstart ≤ p ∧ p ≤ r.pgend)
    (hu : ∀ b, b ≠ a → s'.unpinned b = s.unpinned b ∧ s'.punched b = s.punched b) : Kept s' := by
  have hnone : ∀ b p, ¬ InFlight s b p := fun b p ⟨u, nr, start, stop, hu, _⟩ => by
    have := hfl u
    rw [hu] at this
    cases this
  refine ⟨fun b asma' hb r hrm => ?_, fun b asma' hb p hU hx => .inl ?_⟩
  · rw [hs] at hb
    rcases Shared.mem_setList.mp hb with ⟨rfl, rfl⟩ | ⟨-, hb⟩
    · exact hlow r hrm
    · exact h.low b asma' hb r hrm
  · rw [hs] at hb
    rcases Shared.mem_setList.mp hb with ⟨rfl, rfl⟩ | ⟨hne, hb⟩
    · exact hlive p hU hx
    · rw [(hu b hne).1] at hU
      rw [(hu b hne).2] at hx
      exact (h.pending b asma' hb p hU hx).resolve_right (hnone b p)

/-- The live pages of the list after `ashmem_pin`. -/
theorem PinPost.live {lo hi ret : Nat} {id : RangeId} {l l' : List AshmemRange} {st st' : Pinning}
    (hd : Desc AshmemRange.pgstart AshmemRange.pgend l)
    (hpost : PinPost a lo hi id l st ret l' st') {p : Nat} (hp : ¬ (lo ≤ p ∧ p ≤ hi))
    (h : ∃ r ∈ l, r.purged = ashmemNotPurged ∧ r.pgstart ≤ p ∧ p ≤ r.pgend) :
    ∃ r ∈ l', r.purged = ashmemNotPurged ∧ r.pgstart ≤ p ∧ p ≤ r.pgend := by
  obtain ⟨r, hr, hrp, h1, h2⟩ := h
  have hcov : p ∈ Redroid.cover AshmemRange.pgstart AshmemRange.pgend l' := by
    rw [hpost.cover]
    exact ⟨⟨r, hr, h1, h2⟩, hp⟩
  obtain ⟨r', hr', h1', h2'⟩ := hcov
  obtain ⟨x, hx, hxs, hxe, hxp, -⟩ := hpost.sub r' hr'
  have hxr : x = r := hd.eq_of_common hx hr (p := p) (by omega) (by omega) h1 h2
  exact ⟨r', hr', by rw [hxp, hxr, hrp], h1', h2'⟩

/-- The live pages of the list after `ashmem_unpin`, if the request does not mix pages of purged
ranges with others. -/
theorem unpin_live {lo hi : Nat} {l' : List AshmemRange} {st st' : Pinning}
    (hd : Desc AshmemRange.pgstart AshmemRange.pgend asma.unpinnedList)
    (hn : asma.unpinnedList.Nodup) (hle : lo ≤ hi)
    (heq : ashmemUnpinFrom a asma.unpinnedList lo hi ashmemNotPurged st = some (l', st'))
    (hap : Disjoint asma.purgedPages (Set.Icc lo hi) ∨ Set.Icc lo hi ⊆ asma.purgedPages) {p : Nat}
    (h : (∃ r ∈ asma.unpinnedList, r.purged = ashmemNotPurged ∧ r.pgstart ≤ p ∧ p ≤ r.pgend) ∨
      (p ∉ asma.unpinned ∧ lo ≤ p ∧ p ≤ hi)) :
    ∃ r ∈ l', r.purged = ashmemNotPurged ∧ r.pgstart ≤ p ∧ p ≤ r.pgend := by
  obtain ⟨hkeep, hmerge⟩ := ashmemUnpinFrom_apart hd hn hle heq
  rcases hap with hdis | hsub
  · -- the ranges that the request meets are not purged
    have hmeet : ∀ r ∈ asma.unpinnedList, r.pgstart ≤ hi → lo ≤ r.pgend →
        r.purged = ashmemNotPurged := fun r hr h1 h2 => by
      by_contra hrp
      have hrr := hd.nonempty r hr
      have hpp : max r.pgstart lo ∈ asma.purgedPages :=
        Shared.mem_purgedPages.mpr ⟨r, hr, hrp, by omega, by omega⟩
      exact Set.disjoint_left.mp hdis hpp ⟨by omega, by omega⟩
    obtain ⟨r', hr', hp', h1, h2, h3⟩ := hmerge rfl hmeet
    rcases h with ⟨r, hr, hrp, hr1, hr2⟩ | ⟨-, hlo, hhi⟩
    · by_cases hout : r.pgend < lo ∨ hi < r.pgstart
      · exact ⟨r, hkeep r hr hout, hrp, hr1, hr2⟩
      · have := h3 r hr (by omega) (by omega)
        exact ⟨r', hr', hp', by omega, by omega⟩
    · exact ⟨r', hr', hp', by omega, by omega⟩
  · -- the ranges that the request meets are purged
    rcases h with ⟨r, hr, hrp, hr1, hr2⟩ | ⟨hout, hlo, hhi⟩
    · refine ⟨r, hkeep r hr ?_, hrp, hr1, hr2⟩
      by_contra hcon
      have hrr := hd.nonempty r hr
      obtain ⟨y, hy, hyp, hy1, hy2⟩ := Shared.mem_purgedPages.mp
        (hsub (⟨by omega, by omega⟩ : max r.pgstart lo ∈ Set.Icc lo hi))
      have hyr : y = r := hd.eq_of_common hy hr hy1 hy2 (by omega) (by omega)
      exact hyp (hyr ▸ hrp)
    · exact absurd (Shared.purgedPages_subset (hsub ⟨hlo, hhi⟩)) hout

theorem Kept.run (h : Kept s) (hc : Ctl s) (hd : Data s) {cmd : PinCmd} {pin : AshmemPin}
    {range : RangeId} {ret : Except Errno Nat} {S : Shared} (hp : s.pc t = .body a cmd pin range)
    (ha : asma ∈ s.shared.areas a)
    (heq : ashmemPinUnpin s.shared a asma cmd pin range = some (ret, S))
    (hap : Apart s (.run t)) :
    Kept { (s.requested a asma cmd pin).goto t .idle with shared := S, mutex := none } := by
  have hfl := hc.not_inFlight hp
  obtain ⟨-, hid⟩ := hd.held t range (by rw [hp]; rfl)
  have hok := (hd.area a asma ha).2
  have hlist := hd.ok.list a asma ha
  have hlow := h.low a asma ha
  -- before the body, an unpinned page without a hole is in a range that is not purged
  have hlive : ∀ p, s.unpinned a p → ¬ s.punched a p →
      ∃ r ∈ asma.unpinnedList, r.purged = ashmemNotPurged ∧ r.pgstart ≤ p ∧ p ≤ r.pgend :=
    fun p hU hx => (h.pending a asma ha p hU hx).resolve_right fun ⟨u, nr, start, stop, hu, _⟩ => by
      have := hfl u
      rw [hu] at this
      cases this
  have hsame : Kept { s.goto t .idle with mutex := none } :=
    h.goto (t := t) (by simp [hp]) rfl rfl rfl rfl
  simp only [ashmemPinUnpin, Conc.requested] at heq ⊢
  split at heq
  · rename_i hf
    rw [if_pos hf]
    cases heq
    exact hsame
  rename_i hf
  rw [if_neg hf]
  cases hi : pinInterval asma pin with
  | none =>
    rw [hi] at heq
    cases heq
    exact hsame
  | some i =>
    obtain ⟨lo, hi'⟩ := i
    obtain ⟨hle, hlt, hun⟩ : lo ≤ hi' ∧ hi' < 2 ^ 64 - 1 ∧ _ := hap a cmd pin range hp asma ha _ hi
    have hends := pinInterval_ends hi hle
    rw [hi] at heq
    cases cmd with
    | getPinStatus =>
      cases heq
      exact hsame
    | pin =>
      obtain ⟨ret', l', st', heq', -, hpost, -, -⟩ := Shared.pin_spec hd.ok ha hid hle
      simp only [heq', Option.map_some, Option.some.injEq, Prod.mk.injEq] at heq
      obtain ⟨-, rfl⟩ := heq
      refine h.setList hfl rfl (fun r hr => ?_) (fun p hU hx => ?_) fun b hne => ?_
      · obtain ⟨x, hx, -, -, -, -, h2⟩ := hpost.sub r hr
        have := hlow x hx
        omega
      · simp only [Conc.request, Conc.goto_unpinned, Conc.goto_punched, true_and] at hU hx
        exact hpost.live hlist.desc hU.2 (hlive p hU.1 hx)
      · simp [Conc.request, hne]
    | unpin =>
      obtain ⟨l', st', hfrom, hpost⟩ :=
        ashmemUnpinFrom_spec hlist (hd.ok.fresh ha hid) hle (by omega) (.inl rfl)
      simp only [Shared.unpin, ashmemUnpin, hfrom, Option.bind_eq_bind, Option.bind_some,
        Option.map_some, Option.some.injEq, Prod.mk.injEq] at heq
      obtain ⟨-, rfl⟩ := heq
      refine h.setList hfl rfl (fun r hr => ?_) (fun p hU hx => ?_) fun b hne => ?_
      · rcases (hpost.ends r hr).2 with he | ⟨x, hx, he⟩
        · omega
        · exact he ▸ hlow x hx
      · simp only [Conc.request, Conc.goto_unpinned, Conc.goto_punched, true_and] at hU hx
        refine unpin_live hlist.desc (.of_map _ hlist.ids) hle hfrom (hun rfl) ?_
        by_cases hpU : s.unpinned a p
        · exact .inl (hlive p hpU fun hpx => hx ⟨hpx, fun h => h.1 hpU⟩)
        · exact .inr ⟨fun hm => hpU ((hok.ghost p).mpr hm), hU.resolve_left hpU⟩
      · simp [Conc.request, hne]

theorem Kept.step (h : Kept s) (hc : Ctl s) (hd : Data s) (hap : Apart s x)
    (hw : WholeHole s x) (hst : Step v s x s') : Kept s' := by
  have hfl : ∀ b p, InFlight s b p → InFlight s b p ∨ s.punched b p := fun _ _ => .inl
  have hsetArea : ∀ {a : AreaId} {asma asma' : AshmemArea}, asma ∈ s.shared.areas a →
      asma'.unpinnedList = asma.unpinnedList →
      Kept { s with shared := s.shared.setArea a asma' } := fun {a asma asma'} ha hl => by
    refine h.keep (fun b asma₂ hb => .inl ?_) (fun _ _ => id) (fun _ _ => id) hfl
    rcases Shared.mem_setArea.mp hb with ⟨rfl, rfl⟩ | ⟨-, hb⟩
    · exact ⟨asma, ha, hl.symm⟩
    · exact ⟨asma₂, hb, rfl⟩
  cases hst with
  | «open» mode hm =>
    refine h.keep (fun b asma₂ hb => ?_) (fun _ _ => id) (fun _ _ => id) hfl
    rcases Shared.mem_setArea.mp hb with ⟨rfl, rfl⟩ | ⟨-, hb⟩
    · exact .inr ⟨rfl, hd.new _ (Nat.le_refl _)⟩
    · exact .inl ⟨asma₂, hb, rfl⟩
  | setSize a size hm ha hs =>
    simp only [ashmemSetSize] at hs
    split at hs
    · cases hs
      exact hsetArea ha rfl
    · cases hs
  | mmap a env vma hm ha => exact hsetArea ha (ashmemMmap_area v env _ vma).1
  | release a hm ha hu =>
    exact h.keep (fun b asma₂ hb => .inl ⟨asma₂, (Shared.mem_release_areas.mp hb).2, rfl⟩)
      (fun _ _ => id) (fun _ _ => id) hfl
  | ioctl t a cmd pin hp ha => exact h.goto (t := t) (by simp [hp]) rfl rfl rfl rfl
  | lock t hp hm => exact h.goto (t := t) (by simp [hp]) rfl rfl rfl rfl
  | wake t hp hi => exact h.goto (t := t) (by simp [hp]) rfl rfl rfl rfl
  | run t hp ha heq => exact h.run hc hd hp ha heq hap
  | shrink t nr hp hm => exact h.goto (t := t) (by simp [hp]) rfl rfl rfl rfl
  | takeNone t hp hl => exact h.goto (t := t) (by simp [hp]) rfl rfl rfl rfl
  | take t hp hl hde hf => exact h.take hd hp hl hde
  | punchPage t p hp hh =>
    exact h.keep (fun b asma₂ hb => .inl ⟨asma₂, hb, rfl⟩) (fun _ _ => id) (fun _ _ => .inl)
      fun _ _ => .inl
  | @punchEnd t nr a start stop hp =>
    refine h.keep (fun b asma₂ hb => .inl ⟨asma₂, hb, rfl⟩) (fun _ _ => id) (fun _ _ => id) ?_
    rintro b p ⟨u, nr', start', stop', hu, hin⟩
    by_cases hut : u = t
    · subst hut
      exact .inr (hw nr' b start' stop' hu p hin)
    · exact .inl ⟨u, nr', start', stop', by simp [hut, hu], hin⟩
  | decInflight t hp => exact h.goto (t := t) (by simp [hp]) rfl rfl rfl rfl
  | relock t hp hm hn => exact h.goto (t := t) (by simp [hp]) rfl rfl rfl rfl
  | relockDone t hp hm hn => exact h.goto (t := t) (by simp [hp]) rfl rfl rfl rfl
  | giveUp t hp => exact h.goto (t := t) (by simp [hp]) rfl rfl rfl rfl

/-- The condition on the steps of a run: `fallocate` works, and requests keep purged ranges apart. -/
def PurgeOk (s : Conc) (x : Act) : Prop := WholeHole s x ∧ Apart s x

theorem PurgeOk.intervalOk (h : PurgeOk s x) : IntervalOk s x := by
  cases x with
  | run t => exact fun a cmd pin range hp asma ha i hi => (h.2 a cmd pin range hp asma ha i hi).1
  | _ => trivial

theorem concSys_kept (h : (concSys v).ReachIf PurgeOk s) : Ctl s ∧ Data s ∧ Kept s := by
  have hinv := concSys_inv (h.mono fun _ _ => PurgeOk.intervalOk)
  refine ⟨hinv.1, hinv.2, ?_⟩
  induction h with
  | init hi =>
    cases hi
    exact ⟨by simp [Conc.start], by simp [Conc.start]⟩
  | step hr hok hst ih =>
    have hpre := concSys_inv (hr.mono fun _ _ => PurgeOk.intervalOk)
    exact (ih hpre).step hpre.1 hpre.2 hok.2 hok.1 hst

theorem Kept.pending_lru (h : Kept s) (hd : Data s) : Pending s := by
  intro a ha p hU hx
  obtain ⟨asma, ha⟩ := Option.isSome_iff_exists.mp ha
  refine (h.pending a asma ha p hU hx).imp_left fun ⟨r, hr, hrp, hps⟩ => ?_
  exact ⟨asma, ha, r, hr, ((hd.ok.list a asma ha).onLru r hr).mpr hrp, hps⟩

end Kept

/-! ## `ASHMEM_PURGE_ALL_CACHES` -/

/-- `LONG_MAX`. -/
def longMax : Nat := 2 ^ 63 - 1

/-- The thread of a step of `ashmem_shrink_scan` whose `mutex_trylock` succeeds. -/
def Act.scanner : Act → Option Tid
  | .take t | .punchPage t _ | .punchEnd t | .decInflight t | .relock t => some t
  | _ => none

/-- `ASHMEM_PURGE_ALL_CACHES` called by `t` in the state `s`, with no concurrent operation. -/
def purgeAllSys (v : Nat) (s : Conc) (t : Tid) : Sys Conc Act where
  init s' := Step v s (.shrink t longMax) s'
  step s₁ x s₂ := x.scanner = some t ∧ WholeHole s₁ x ∧ Step v s₁ x s₂

/-- After `ASHMEM_PURGE_ALL_CACHES` with no concurrent operation, a hole was punched over every
unpinned page since it became unpinned. (`LONG_MAX` is more than the ranges there can be.) -/
def Purgeable (v : Nat) (s : Conc) : Prop :=
  (∀ u, s.pc u = .idle) → s.shared.lru.list.length ≤ longMax →
    ∀ t s', (purgeAllSys v s t).Reach s' → s'.pc t = .idle →
      ∀ a, (s'.shared.areas a).isSome → ∀ p, s'.unpinned a p → s'.punched a p

/-- While `t` purges all caches: the others are idle, and `nr_to_scan` is enough for the ranges on
the LRU list. -/
structure Purging (t : Tid) (s : Conc) : Prop where
  others : ∀ u, u ≠ t → s.pc u = .idle
  left : match s.pc t with
    | .idle => s.shared.lru.list = []
    | .scan nr => s.shared.lru.list.length ≤ nr ∧ 0 < nr ∧ nr < 2 ^ 64
    | .punch nr _ _ _ | .punched nr | .relock nr => s.shared.lru.list.length < nr ∧ nr < 2 ^ 64
    | _ => False

section PurgeAll

variable {v : Nat} {s s₀ s' : Conc} {x : Act} {t : Tid}

theorem Purging.step (h : Purging t s) (hd : Data s) (hx : x.scanner = some t)
    (hst : Step v s x s') : Purging t s' := by
  have hothers : ∀ c : Pc, ∀ u, u ≠ t → Function.update s.pc t c u = .idle := fun c u hu => by
    rw [Function.update_of_ne hu]
    exact h.others u hu
  have hleft := h.left
  cases hst with
  | takeNone u hp hl =>
    cases hx
    exact ⟨hothers _, by simpa using hl⟩
  | @take u nr ref rest asma range f hp hl hde hf =>
    cases hx
    rw [hp] at hleft
    refine ⟨hothers _, ?_⟩
    have hrest : (s.shared.purge ref.asma asma range).lru.list = rest := by
      obtain ⟨asma₁, r₁, hd₁, -, -, hre, -⟩ := hd.ok.deref ref (by simp [hl])
      rw [hde] at hd₁
      obtain ⟨rfl, rfl⟩ : asma = asma₁ ∧ range = r₁ := by simpa using hd₁
      show s.shared.lru.list.erase range.ref = rest
      rw [hl, hre, List.erase_cons_head]
    simp only [Conc.goto_pc, Function.update_self, hrest]
    rw [hl, List.length_cons] at hleft
    exact ⟨hleft.1, hleft.2.2⟩
  | punchPage u p hp hh =>
    cases hx
    exact ⟨h.others, hleft⟩
  | punchEnd u hp =>
    cases hx
    rw [hp] at hleft
    exact ⟨hothers _, by simpa using hleft⟩
  | decInflight u hp =>
    cases hx
    rw [hp] at hleft
    exact ⟨hothers _, by simpa using hleft⟩
  | relock u hp hm hn =>
    cases hx
    rw [hp] at hleft
    refine ⟨hothers _, ?_⟩
    simp only [Conc.goto_pc, Function.update_self, Conc.goto_shared]
    omega
  | relockDone u hp hm hn =>
    cases hx
    rw [hp] at hleft
    refine ⟨hothers _, ?_⟩
    simp only [Conc.goto_pc, Function.update_self, Conc.goto_shared]
    refine List.length_eq_zero_iff.mp ?_
    omega
  | _ => cases hx

/-- The states of `ASHMEM_PURGE_ALL_CACHES` are states of the module. -/
theorem purgeAllSys_reach (h₀ : (concSys v).ReachIf PurgeOk s₀)
    (h : (purgeAllSys v s₀ t).Reach s) : (concSys v).ReachIf PurgeOk s := by
  induction h with
  | init hi => exact h₀.step (a := Act.shrink t longMax) ⟨trivial, trivial⟩ hi
  | @step s s' x hr _ hst ih =>
    obtain ⟨hx, hw, hst⟩ := hst
    refine ih.step ⟨hw, ?_⟩ hst
    cases x with
    | run t => cases hx
    | _ => trivial

theorem purgeAllSys_purging (h₀ : (concSys v).ReachIf PurgeOk s₀) (hidle : ∀ u, s₀.pc u = .idle)
    (hlen : s₀.shared.lru.list.length ≤ longMax) (h : (purgeAllSys v s₀ t).Reach s) :
    Purging t s := by
  induction h with
  | init hi =>
    cases hi with
    | shrink _ _ hp hm =>
      refine ⟨fun u hu => ?_, ?_⟩
      · simp [hu, hidle]
      · simp only [Conc.goto_pc, Function.update_self, Conc.goto_shared]
        exact ⟨hlen, by decide, by decide⟩
  | step hr _ hst ih =>
    exact ih.step (concSys_kept (purgeAllSys_reach h₀ hr)).2.1 hst.1 hst.2.2

theorem goto_pc_self (s : Conc) (t : Tid) (c : Pc) : (s.goto t c).pc t = c := Function.update_self ..

theorem purgeAllSys_next (h : (purgeAllSys v s₀ t).Reach s) (hst : Step v s x s')
    (hx : x.scanner = some t) (hw : WholeHole s x) : (purgeAllSys v s₀ t).Reach s' :=
  h.next ⟨hx, hw, hst⟩

/-- A hole is punched, page by page. -/
theorem purgeAllSys_punch {nr a start stop : Nat} (h : (purgeAllSys v s₀ t).Reach s)
    (hp : s.pc t = .punch nr a start stop) (k : Nat) :
    ∃ s', (purgeAllSys v s₀ t).Reach s' ∧ s'.pc = s.pc ∧ s'.shared = s.shared ∧
      s'.mutex = s.mutex ∧ ∀ p < k, inHole start stop p → s'.punched a p := by
  induction k with
  | zero => exact ⟨s, h, rfl, rfl, rfl, fun p hp => absurd hp (Nat.not_lt_zero p)⟩
  | succ k ih =>
    obtain ⟨s₁, h₁, hpc, hs, hm, hx⟩ := ih
    by_cases hk : inHole start stop k
    · have h₂ := purgeAllSys_next h₁ (.punchPage t k (hpc ▸ hp) hk) rfl trivial
      refine ⟨_, h₂, hpc, hs, hm, fun p hp hin => ?_⟩
      by_cases hpk : p = k
      · exact .inr ⟨rfl, hpk⟩
      · exact .inl (hx p (by omega) hin)
    · refine ⟨s₁, h₁, hpc, hs, hm, fun p hp hin => hx p ?_ hin⟩
      have : p ≠ k := fun he => hk (he ▸ hin)
      omega

/-- `ASHMEM_PURGE_ALL_CACHES` with no concurrent operation comes to its end. -/
theorem purgeAllSys_completes (h₀ : (concSys v).ReachIf PurgeOk s₀) (hidle : ∀ u, s₀.pc u = .idle) :
    ∃ s', (purgeAllSys v s₀ t).Reach s' ∧ s'.pc t = .idle := by
  have hloop : ∀ n s nr, (purgeAllSys v s₀ t).Reach s → s.pc t = .scan nr →
      s.shared.lru.list.length = n → ∃ s', (purgeAllSys v s₀ t).Reach s' ∧ s'.pc t = .idle := by
    intro n
    induction n with
    | zero =>
      intro s nr h hp hn
      have h₁ := purgeAllSys_next h (.takeNone t hp (List.length_eq_zero_iff.mp hn)) rfl trivial
      exact ⟨_, h₁, Function.update_self ..⟩
    | succ n ih =>
      intro s nr h hp hn
      obtain ⟨-, hd, -⟩ := concSys_kept (purgeAllSys_reach h₀ h)
      obtain ⟨ref, rest, hl⟩ := List.exists_cons_of_length_eq_add_one hn
      obtain ⟨asma, r, hde, ha, hr, hre, -⟩ := hd.ok.deref ref (by simp [hl])
      obtain ⟨f, hf⟩ : ∃ f, f ∈ asma.file := by
        refine Option.ne_none_iff_exists'.mp fun hf => ?_
        rw [(hd.area _ asma ha).2.file hf] at hr
        cases hr
      have h₁ := purgeAllSys_next h (.take t hp hl hde hf) rfl trivial
      obtain ⟨s₂, h₂, hpc₂, hs₂, hm₂, hx₂⟩ := purgeAllSys_punch h₁ (Function.update_self ..)
        ((r.pgend + 1) % 2 ^ 64 * pageSize % 2 ^ 64)
      have hp₂ : s₂.pc t = .punch nr ref.asma (r.pgstart * pageSize % 2 ^ 64)
          ((r.pgend + 1) % 2 ^ 64 * pageSize % 2 ^ 64) := by
        rw [hpc₂]
        exact Function.update_self ..
      have hwhole : WholeHole s₂ (.punchEnd t) := fun nr' a' start' stop' hp' p hin => by
        rw [hp₂] at hp'
        cases hp'
        refine hx₂ p ?_ hin
        have := hin.2
        unfold pageSize at this ⊢
        omega
      have h₃ := purgeAllSys_next h₂ (.punchEnd t hp₂) rfl hwhole
      have h₄ := purgeAllSys_next h₃ (.decInflight t (goto_pc_self s₂ t (.punched nr))) rfl trivial
      have hrest : s₂.shared.lru.list.length = n := by
        rw [hs₂]
        show (s.shared.lru.list.erase r.ref).length = n
        rw [hl, hre, List.erase_cons_head]
        simpa [hl] using hn
      by_cases hnr : (nr + (2 ^ 64 - 1)) % 2 ^ 64 = 0
      · have h₅ := purgeAllSys_next h₄ (.relockDone t (goto_pc_self _ t (.relock nr)) hm₂ hnr)
          rfl trivial
        exact ⟨_, h₅, Function.update_self ..⟩
      · have h₅ := purgeAllSys_next h₄ (.relock t (goto_pc_self _ t (.relock nr)) hm₂ hnr)
          rfl trivial
        exact ih _ _ h₅ (Function.update_self ..) hrest
  have hmutex : s₀.mutex = none := by
    cases hm : s₀.mutex with
    | none => rfl
    | some u =>
      have := ((concSys_kept h₀).1.mutex u).mpr hm
      rw [hidle u] at this
      cases this
  have hinit : Step v s₀ (.shrink t longMax) _ := .shrink t longMax (hidle t) hmutex
  exact hloop _ _ longMax (.init hinit) (Function.update_self ..) rfl

/-- **Everything unpinned can be purged**, in every run in which `fallocate` punches the holes it is
asked for and no unpin mixes pages of ranges that are marked purged with other pages: an unpinned
page without a hole is on the LRU list or under a hole in flight, and `ASHMEM_PURGE_ALL_CACHES`
with no concurrent operation leaves no unpinned page without a hole. -/
theorem concSys_purgeable (h : (concSys v).ReachIf PurgeOk s) : Pending s ∧ Purgeable v s := by
  obtain ⟨-, hd, hk⟩ := concSys_kept h
  refine ⟨hk.pending_lru hd, fun hidle hlen t s' hs' hdone a ha p hU => ?_⟩
  obtain ⟨hothers, hleft⟩ := purgeAllSys_purging h hidle hlen hs'
  obtain ⟨-, hd', hk'⟩ := concSys_kept (purgeAllSys_reach h hs')
  rw [hdone] at hleft
  by_contra hx
  rcases hk'.pending_lru hd' a ha p hU hx with ⟨asma, -, r, -, hm, -⟩ | ⟨u, nr, start, stop, hu, -⟩
  · rw [hleft] at hm
    cases hm
  · by_cases hut : u = t
    · rw [hut, hdone] at hu
      cases hu
    · rw [hothers u hut] at hu
      cases hu

end PurgeAll

theorem wholeHole_plain (s : Conc) (x : Act) (h : x.plain = true) : WholeHole s x := by
  cases x with
  | punchEnd t => cases h
  | _ => trivial

theorem concSys_purgeable_onePage : ∃ s, (concSys (kernelVersion 6 6 0)).ReachIf PurgeOk s ∧
    s.shared.lru = ⟨[⟨0, 0⟩], 1⟩ ∧ Pending s ∧ Purgeable (kernelVersion 6 6 0) s := by
  obtain ⟨s, h, hone⟩ := reach_onePage_unpinned (C := PurgeOk)
    (fun s x hx => ⟨wholeHole_plain s x hx, by cases x with | run t => cases hx | _ => trivial⟩)
    fun s t hbody => ⟨trivial, fun a cmd pin range hp asma ha i hi => by
      obtain ⟨rfl, rfl⟩ := hbody a cmd pin range hp asma ha
      have hi0 : pinInterval onePage firstPage = some (0, 0) := pinInterval_onePage []
      rw [hi0] at hi
      cases hi
      refine ⟨Nat.le_refl 0, by decide, fun _ => .inl ?_⟩
      simp [AshmemArea.purgedPages, onePage, ashmemOpen]⟩
  exact ⟨s, h, hone.lru, concSys_purgeable h⟩

/-- An area of two pages with its backing file. -/
def twoPages : AshmemArea :=
  { ashmemOpen 0 with size := 8192, file := some ⟨"dev/ashmem", 8192, 0⟩ }

/-- Both pages of `twoPages`. -/
def bothPages : AshmemPin := ⟨0, 8192⟩

theorem pinInterval_twoPages (l : List AshmemRange) :
    pinInterval { twoPages with unpinnedList := l } firstPage = some (0, 0) ∧
      pinInterval { twoPages with unpinnedList := l } bothPages = some (0, 1) :=
  (by decide : pinInterval { twoPages with unpinnedList := [] } firstPage = some (0, 0) ∧
    pinInterval { twoPages with unpinnedList := [] } bothPages = some (0, 1))

/-- Unpin the first page of two, purge it, and unpin both: the second page is merged into the range
of the first, which is marked purged. -/
theorem reach_merged : ∃ s, (concSys (kernelVersion 6 6 0)).ReachIf WholeHole s ∧
    (∀ u, s.pc u = .idle) ∧ s.mutex = none ∧ s.shared.lru.list = [] ∧ (s.shared.areas 0).isSome ∧
    s.unpinned 0 1 ∧ ¬ s.punched 0 1 := by
  -- unpin the first page
  have hun : ashmemUnpinFrom 0 [] 0 0 ashmemNotPurged ⟨some 0, ⟨[], 0⟩⟩ =
      some ([⟨0, 0, 0, 0, 0⟩], ⟨none, ⟨[⟨0, 0⟩], 1⟩⟩) := by rw [ashmemUnpinFrom]; rfl
  have h4 := reach_run (t := 0) (a := 0) .unpin firstPage twoPages (.ok 0) wholeHole_plain
    (S := Shared.setList _ 0 twoPages [⟨0, 0, 0, 0, 0⟩] ⟨none, ⟨[⟨0, 0⟩], 1⟩⟩)
    (reach_mapped 8192 twoPages wholeHole_plain rfl (by decide)) rfl rfl rfl rfl (by
      have hi : pinInterval twoPages firstPage = some (0, 0) := (pinInterval_twoPages []).1
      unfold ashmemPinUnpin
      rw [if_neg (by decide), hi]
      simp only [Shared.unpin, ashmemUnpin]
      show Option.map _ (((ashmemUnpinFrom 0 [] 0 0 ashmemNotPurged
        ⟨some 0, ⟨[], 0⟩⟩).bind _).bind _) = _
      rw [hun]
      rfl) trivial
  -- purge it
  have h5 := h4.step (a := Act.shrink 1 1) trivial (.shrink 1 1 rfl rfl)
  have h6 := h5.step (a := Act.take 1) trivial
    (.take 1 (show _ = Pc.scan 1 from rfl) (show _ = [(⟨0, 0⟩ : RangeRef)] from rfl)
      (show _ = some ({ twoPages with unpinnedList := [⟨0, 0, 0, 0, 0⟩] }, ⟨0, 0, 0, 0, 0⟩) from rfl)
      rfl)
  have h7 := h6.step (a := Act.punchPage 1 0) trivial
    (.punchPage 1 0 (show _ = Pc.punch 1 0 0 4096 from rfl) (by unfold inHole; decide))
  have h8 := h7.step (a := Act.punchEnd 1) (fun nr a start stop hp p hin => by
      cases hp
      have hp0 : p = 0 := by
        have : p * 4096 < 4096 := hin.2
        omega
      exact .inr ⟨rfl, hp0⟩)
    (.punchEnd 1 (show _ = Pc.punch 1 0 0 4096 from rfl))
  have h9 := h8.step (a := Act.decInflight 1) trivial (.decInflight 1 (show _ = Pc.punched 1 from rfl))
  have h10 := h9.step (a := Act.relock 1) trivial
    (.relockDone 1 (show _ = Pc.relock 1 from rfl) rfl rfl)
  -- unpin both
  have hun2 : ashmemUnpinFrom 0 [⟨0, 0, 0, 0, 1⟩] 0 1 ashmemNotPurged ⟨some 1, ⟨[], 0⟩⟩ =
      some ([⟨1, 0, 0, 1, 1⟩], ⟨none, ⟨[], 0⟩⟩) := by
    rw [ashmemUnpinFrom]
    show ashmemUnpinFrom 0 [] 0 1 1 ⟨some 1, ⟨[], 0⟩⟩ = _
    rw [ashmemUnpinFrom]
    rfl
  have h11 := reach_run (t := 0) (a := 0) .unpin bothPages
    { twoPages with unpinnedList := [⟨0, 0, 0, 0, 1⟩] } (.ok 0) wholeHole_plain
    (S := Shared.setList _ 0 twoPages [⟨1, 0, 0, 1, 1⟩] ⟨none, ⟨[], 0⟩⟩) h10 rfl rfl rfl rfl (by
      unfold ashmemPinUnpin
      rw [if_neg (by decide), (pinInterval_twoPages _).2]
      simp only [Shared.unpin, ashmemUnpin]
      show Option.map _ (((ashmemUnpinFrom 0 [⟨0, 0, 0, 0, 1⟩] 0 1 ashmemNotPurged
        ⟨some 1, ⟨[], 0⟩⟩).bind _).bind _) = _
      rw [hun2]
      rfl) trivial
  refine ⟨_, h11, fun u => ?_, rfl, rfl, rfl, ?_, ?_⟩
  · by_cases h0 : u = 0
    · subst h0
      rfl
    · simp [Conc.requested_ctl.1, Conc.call, h0, Conc.start]
  · rw [Conc.goto_unpinned, Conc.requested, if_neg (by decide), (pinInterval_twoPages _).2]
    exact .inr ⟨rfl, by decide, by decide⟩
  · rw [Conc.goto_punched, Conc.requested, if_neg (by decide), (pinInterval_twoPages _).2]
    rintro ⟨h, -⟩
    rcases h with ⟨h, -⟩ | ⟨-, h⟩
    · exact h
    · cases h

/-- `ASHMEM_PURGE_ALL_CACHES` misses the second page. -/
theorem merged_not_purgeable :
    ¬ ∀ v s, (concSys v).ReachIf WholeHole s → Pending s ∧ Purgeable v s := by
  intro hall
  obtain ⟨s, h, hidle, hm, hl, ha, hU, hx⟩ := reach_merged
  have h1 := purgeAllSys_next (v := kernelVersion 6 6 0)
    (.init (Step.shrink 1 longMax (hidle 1) hm))
    (.takeNone 1 (goto_pc_self s 1 (.scan longMax)) hl) rfl trivial
  exact hx ((hall _ s h).2 hidle (by simp [hl]) 1 _ h1 (by simp) 0 ha 1 hU)

end Redroid.Ashmem
