import Mathlib.Data.Finset.Card
import Mathlib.Data.Finset.Range
import Redroid.Binderfs.Ledger

/-!
# Device numbers

* `Least`: `ida_alloc_max` returns the smallest id that is free.
* `Room`: an id strictly below the limit of `ida_alloc_max` is free. The limit itself is the number of
  minors, or four less, and `ida_alloc_max` returns it as well.
* `minors_valid`: as long as there is room, all minors are those of the region, devices have different
  numbers, and four minors are left to the initial namespace.
-/

namespace Redroid.Binderfs

open Fs

variable {cfg : Config} {s s' : Fs} {op : FsOp} {m : MountId} {info : Info} {k n : Nat} {i i' : InodeId}
  {I I' : Inode} {d d' : Device} {f : Weight} {c : Choice} {t : Task} {act : Act} {rest : List Act}
  {past : List (Fs × FsOp)} {j : Nat}

/-- `MAJOR` -/
def majorOf (dev : Nat) : Nat := dev >>> minorbits

/-- `MINOR` -/
def minorOf (dev : Nat) : Nat := dev &&& (2 ^ minorbits - 1)

/-- The numbers that `alloc_chrdev_region` has reserved. -/
def inRegion (cfg : Config) (dev : Nat) : Prop :=
  mkdev cfg.major 0 ≤ dev ∧ dev < mkdev cfg.major 0 + binderfsMaxMinor

/-- `ida_alloc_max` returns the smallest id that is free. -/
def Least (s : Fs) (op : FsOp) : Prop := ∀ k, op.choice.id = some k → ∀ k' < k, k' ∈ s.minors

/-- When `ida_alloc_max` returns an id, one strictly below its limit is free. -/
def Room (cfg : Config) (s : Fs) (op : FsOp) : Prop := ∀ k m info, op.choice.id = some k →
  op.sb s = some m → s.mounts m = some info → ∃ k' < maxMinor cfg info, k' ∉ s.minors

/-- The step assigns the minor `k`. -/
def assigns (k : Nat) (x : Fs × FsOp) : Bool := x.2.choice.id == some k

/-- The step is about a mount of the initial namespace. -/
def initial (cfg : Config) (x : Fs × FsOp) : Prop :=
  ∃ m info, x.2.sb x.1 = some m ∧ x.1.mounts m = some info ∧ useReserve cfg info = true

/-! ## Numbers -/

theorem mkdev_eq (h : k < 2 ^ minorbits) (major : Nat) : mkdev major k = 2 ^ minorbits * major + k := by
  rw [mkdev, ← Nat.shiftLeft_add_eq_or_of_lt h, Nat.shiftLeft_eq, Nat.mul_comm]

theorem majorOf_mkdev (h : k < 2 ^ minorbits) (major : Nat) : majorOf (mkdev major k) = major := by
  rw [majorOf, mkdev_eq h, Nat.shiftRight_eq_div_pow, Nat.mul_add_div (Nat.two_pow_pos _),
    Nat.div_eq_of_lt h, Nat.add_zero]

theorem minorOf_mkdev (h : k < 2 ^ minorbits) (major : Nat) : minorOf (mkdev major k) = k := by
  rw [minorOf, mkdev_eq h, Nat.and_two_pow_sub_one_eq_mod, Nat.mul_add_mod, Nat.mod_eq_of_lt h]

theorem mkdev_inRegion (h : k < 2 ^ minorbits) : inRegion cfg (mkdev cfg.major k) := by
  rw [inRegion, mkdev_eq h, mkdev_eq (Nat.two_pow_pos _), binderfsMaxMinor]
  omega

/-! ## Assigned minors -/

/-- What a step has assigned. -/
theorem Effect.assigned (h : Effect cfg s m c s') (hid : c.id = some k) : ∃ info,
    s.mounts m = some info ∧ k ∉ s.minors ∧ k ≤ maxMinor cfg info ∧ s'.minors = insert k s.minors := by
  cases h with
  | keep hc | give _ _ hc =>
    rw [hc] at hid
    cases hid
  | take _ hc hinfo hk hle hm | lose hc hinfo hk hle hm =>
    subst hc
    cases hid
    exact ⟨_, hinfo, hk, hle, hm⟩

theorem Effect.minors (h : Effect cfg s m c s') (hk : k ∈ s'.minors) :
    k ∈ s.minors ∨ c.id = some k := by
  cases h with
  | keep _ hm => exact .inl (hm ▸ hk)
  | give _ _ _ hm =>
    rw [hm] at hk
    exact .inl (Finset.mem_of_mem_erase hk)
  | take _ hc _ _ _ hm | lose hc _ _ _ hm =>
    rw [hm, Finset.mem_insert] at hk
    rcases hk with rfl | hk
    · exact .inr (by rw [hc]; rfl)
    · exact .inl hk

/-- With room, an assigned minor is below the limit. -/
theorem Effect.lt (h : Effect cfg s m op.choice s') (hsb : op.sb s = some m) (hleast : Least s op)
    (hroom : Room cfg s op) (hid : op.choice.id = some k) :
    ∃ info, s.mounts m = some info ∧ k < maxMinor cfg info := by
  obtain ⟨info, hinfo, -, -, -⟩ := h.assigned hid
  obtain ⟨k', hlt, hfree⟩ := hroom k m info hid hsb hinfo
  refine ⟨info, hinfo, Nat.lt_of_le_of_lt (Nat.le_of_not_lt fun hkk => ?_) hlt⟩
  exact hfree (hleast k hid k' hkk)

theorem maxMinor_le : maxMinor cfg info ≤ 2 ^ minorbits := by
  rw [maxMinor]
  split
  · exact Nat.le_refl _
  · exact Nat.sub_le ..

/-- In a run that has room, the limit of each assignment. -/
theorem assigned_lt (hrun : (fsSys cfg).Run past s) (hleast : ∀ x ∈ past, Least x.1 x.2)
    (hroom : ∀ x ∈ past, Room cfg x.1 x.2) {x : Fs × FsOp} (hx : x ∈ past)
    (hid : x.2.choice.id = some k) :
    ∃ m info, x.2.sb x.1 = some m ∧ x.1.mounts m = some info ∧ k < maxMinor cfg info := by
  induction hrun with
  | init => cases hx
  | @step past s s' op hrun hst ih =>
    obtain ⟨hl, hleast⟩ := List.forall_mem_cons.mp hleast
    obtain ⟨hr, hroom⟩ := List.forall_mem_cons.mp hroom
    rcases List.mem_cons.mp hx with rfl | hx
    · obtain ⟨m, hsb, heff, -⟩ := exec_step (inv_of_reach hrun.reach) hst
      obtain ⟨info, hinfo, hlt⟩ := heff.lt hsb hl hr hid
      exact ⟨m, info, hsb, hinfo, hlt⟩
    · exact ih hleast hroom hx

/-- A minor that is in use was assigned. -/
theorem assigned_of_mem (hrun : (fsSys cfg).Run past s) (hk : k ∈ s.minors) :
    ∃ x, past.find? (assigns k) = some x := by
  induction hrun with
  | init h0 =>
    cases h0
    cases hk
  | @step past s s' op hrun hst ih =>
    obtain ⟨m, -, heff, -⟩ := exec_step (inv_of_reach hrun.reach) hst
    rw [List.find?_cons]
    split
    · exact ⟨_, rfl⟩
    · rename_i hne
      refine ih ((heff.minors hk).resolve_right fun hid => ?_)
      rw [assigns, hid, beq_self_eq_true] at hne
      cases hne

/-! ## Devices -/

theorem inodeWeight_device (h : I.device = some d) : inodeWeight f I = f I.sb I.fop d.minor := by
  rw [inodeWeight, h, Option.elim_some]

/-- Two inodes hold their weight each. -/
theorem weigh_two (hI : s.inode i = some I) (hI' : s.inode i' = some I') (hne : i ≠ i') :
    inodeWeight f I + inodeWeight f I' ≤ s.weigh f := by
  have hstill : (s.setInode i none).inode i' = some I' := by
    rw [inode_setInode (lt_of_inode hI), if_neg (Ne.symm hne), hI']
  have h₁ := weigh_setInode (o := none) (f := f) hI
  have h₂ := weigh_setInode (o := none) (f := f) hstill
  simp only [Option.elim_none, Nat.add_zero] at h₁ h₂
  omega

/-- A minor has one device. -/
theorem device_unique (hrun : (fsSys cfg).Run past s) (hI : s.inode i = some I)
    (hI' : s.inode i' = some I') (hd : I.device = some d) (hd' : I'.device = some d')
    (hm : d.minor = d'.minor) : i = i' := by
  by_contra hne
  have htwo := weigh_two (f := only d.minor) hI hI' hne
  have hone := ledger hrun d.minor
  rw [inodeWeight_device hd, inodeWeight_device hd', ← hm] at htwo
  simp only [only, if_true] at htwo
  split at hone <;> omega

/-- The minor of a device is in use. -/
theorem device_minor (hrun : (fsSys cfg).Run past s) (hI : s.inode i = some I)
    (hd : I.device = some d) : d.minor ∈ s.minors := by
  by_contra hno
  have hone := ledger hrun d.minor
  have hset := weigh_setInode (o := none) (f := only d.minor) hI
  rw [inodeWeight_device hd, only, if_pos rfl, Option.elim_none] at hset
  rw [if_neg hno] at hone
  omega

/-! ## The region -/

/-- In every run in which `ida_alloc_max` finds a free id strictly below its limit: each minor that is
assigned is that of its device number, which is one of the region; devices have different numbers; and
as long as no minor in use was assigned to a mount of the initial namespace, four minors of the region
are free. -/
theorem minors_valid (cfg : Config) (past : List (Fs × FsOp)) (s : Fs) (hrun : (fsSys cfg).Run past s)
    (hleast : ∀ x ∈ past, Least x.1 x.2) (hroom : ∀ x ∈ past, Room cfg x.1 x.2) :
    (∀ x ∈ past, ∀ k, x.2.choice.id = some k → k < 2 ^ minorbits ∧
      majorOf (mkdev cfg.major k) = cfg.major ∧ minorOf (mkdev cfg.major k) = k ∧
      inRegion cfg (mkdev cfg.major k)) ∧
    (∀ i i' I I', s.inode i = some I → s.inode i' = some I' → I.device.isSome → I'.device.isSome →
      i ≠ i' → I.rdev ≠ I'.rdev) ∧
    ((∀ k ∈ s.minors, ∀ x, past.find? (assigns k) = some x → ¬ initial cfg x) →
      4 ≤ (Finset.range binderfsMaxMinor \ s.minors).card) := by
  have hlt {x : Fs × FsOp} (hx : x ∈ past) {k : Nat} (hid : x.2.choice.id = some k) :
      k < 2 ^ minorbits := by
    obtain ⟨m, info, -, -, h⟩ := assigned_lt hrun hleast hroom hx hid
    exact Nat.lt_of_lt_of_le h maxMinor_le
  have hfind {k : Nat} (hk : k ∈ s.minors) : ∃ x ∈ past, past.find? (assigns k) = some x ∧
      x.2.choice.id = some k := by
    obtain ⟨x, hx⟩ := assigned_of_mem hrun hk
    have hid : assigns k x = true := List.find?_some hx
    exact ⟨x, List.mem_of_find?_eq_some hx, hx, beq_iff_eq.mp hid⟩
  refine ⟨fun x hx k hid => ?_, fun i i' I I' hI hI' hd hd' hne heq => ?_, fun hnone => ?_⟩
  · have h := hlt hx hid
    exact ⟨h, majorOf_mkdev h _, minorOf_mkdev h _, mkdev_inRegion h⟩
  · obtain ⟨d, hd⟩ := Option.isSome_iff_exists.mp hd
    obtain ⟨d', hd'⟩ := Option.isSome_iff_exists.mp hd'
    have hbound {i : InodeId} {I : Inode} {d : Device} (hI : s.inode i = some I)
        (hd : I.device = some d) : minorOf I.rdev = d.minor := by
      obtain ⟨x, hx, -, hid⟩ := hfind (device_minor hrun hI hd)
      rw [((inv_of_reach hrun.reach).tree.device i I d hI hd).1, minorOf_mkdev (hlt hx hid)]
    refine hne (device_unique hrun hI hI' hd hd' ?_)
    rw [← hbound hI hd, ← hbound hI' hd', heq]
  · have hcapped : s.minors ⊆ Finset.range binderfsMaxMinorCapped := fun k hk => by
      obtain ⟨x, hx, hfirst, hid⟩ := hfind hk
      obtain ⟨m, info, hsb, hinfo, h⟩ := assigned_lt hrun hleast hroom hx hid
      have hother : useReserve cfg info ≠ true := fun hres =>
        hnone k hk x hfirst ⟨m, info, hsb, hinfo, hres⟩
      rw [maxMinor, if_neg hother] at h
      exact Finset.mem_range.mpr h
    have hcard := Finset.le_card_sdiff s.minors (Finset.range binderfsMaxMinor)
    have hle := Finset.card_le_card hcapped
    rw [Finset.card_range] at hcard hle
    have : binderfsMaxMinorCapped + 4 = binderfsMaxMinor := rfl
    omega

/-- The minor that a step assigns is the number of those in use. -/
def inOrder (s : Fs) (op : FsOp) : Prop := ∀ k ∈ op.choice.id, s.minors = Finset.range k

theorem Least.of_inOrder (h : inOrder s op) : Least s op := fun k hid k' hlt => by
  rw [h k hid]
  exact Finset.mem_range.mpr hlt

theorem Room.of_inOrder (h : inOrder s op) (hsmall : ∀ k ∈ op.choice.id, k < 2) : Room cfg s op :=
  fun k m info hid _ _ => by
    refine ⟨k, Nat.lt_of_lt_of_le (hsmall k hid) ?_, by rw [h k hid]; simp⟩
    rw [maxMinor]
    split <;> decide

theorem inOrder.of_none (h : op.choice.id = none) : inOrder s op := fun k hk => by
  rw [h] at hk
  cases hk

instance : Decidable (inOrder s op) := by
  unfold inOrder
  infer_instance

/-- The step is about no mount of the initial namespace. -/
def outside (cfg : Config) (s : Fs) (op : FsOp) : Bool :=
  (op.sb s).all fun m => (s.mounts m).all fun info => !useReserve cfg info

theorem not_initial_of_outside (h : outside cfg s op = true) : ¬ initial cfg (s, op) := by
  rintro ⟨m, info, hm, hinfo, hres⟩
  have hm : op.sb s = some m := hm
  simp [outside, hm, show s.mounts m = some info from hinfo, hres] at h

/-- The steps of a mount in another namespace. -/
def mountsOther (s : Fs) (op : FsOp) : Prop :=
  (inOrder s op ∧ ∀ k ∈ op.choice.id, k < 2) ∧ outside oneDevice s op = true

instance : Decidable (mountsOther s op) := by
  unfold mountsOther
  infer_instance

/-- The state after the mount of the device `binder` in the namespace 1. -/
def mountedOther : Fs := (Sys.execIf (Fs.exec oneDevice) mountsOther Fs.start (mountOne 1)).get rfl

/-- The device numbers of the two devices of a mount are valid, and differ; four minors are left to the
initial namespace. -/
theorem minors_valid_mountOther : (∀ k ∈ [0, 1], majorOf (mkdev oneDevice.major k) = 510) ∧
    (∃ I I', mountedOther.inode 1 = some I ∧ mountedOther.inode 2 = some I' ∧ I.rdev ≠ I'.rdev) ∧
    4 ≤ (Finset.range binderfsMaxMinor \ mountedOther.minors).card := by
  have hreach : (fsSys oneDevice).ReachIf mountsOther mountedOther :=
    Sys.ReachIf.execIf (.init rfl) (Option.some_get _).symm
  obtain ⟨past, hrun, hall⟩ := hreach.run
  obtain ⟨hvalid, hdistinct, hleft⟩ := minors_valid oneDevice past mountedOther hrun
    (fun x hx => .of_inOrder (hall x hx).1.1) fun x hx => .of_inOrder (hall x hx).1.1 (hall x hx).1.2
  have hused {k : Nat} (hk : k ∈ mountedOther.minors) : majorOf (mkdev oneDevice.major k) = 510 := by
    obtain ⟨x, hx⟩ := assigned_of_mem hrun hk
    have hid : assigns k x = true := List.find?_some hx
    exact (hvalid x (List.mem_of_find?_eq_some hx) k (beq_iff_eq.mp hid)).2.1
  refine ⟨List.forall_mem_cons.mpr ⟨hused (by decide +kernel), List.forall_mem_singleton.mpr
    (hused (by decide +kernel))⟩, ⟨_, _, rfl, rfl, ?_⟩, hleft fun k _ x hx => ?_⟩
  · exact hdistinct 1 2 _ _ rfl rfl rfl rfl (by decide)
  · exact not_initial_of_outside (hall x (List.mem_of_find?_eq_some hx)).2

/-! ## A region that is full -/

/-- The initial namespace 0, and no default devices. -/
def noDevices : Config where
  major := 510
  initIpcNs := 0
  ipcNs := true
  devices := []
  matchToken := fun _ => .err

/-- After `n` mounts. -/
structure Filled (n : Nat) (s : Fs) : Prop where
  length : s.tasks.length = n
  sb : ∀ t ∈ s.tasks, t.sb < n
  mounts : ∀ m, n ≤ m → s.mounts m = none
  minors : s.minors = Finset.range n

/-- The last mount goes on with `acts`. -/
structure Filling (n : Nat) (acts : List Act) (s : Fs) : Prop where
  task : s.tasks[n]? = some ⟨n, true, acts, 0⟩
  sb : ∀ t ∈ s.tasks, t.sb < n + 1
  length : s.tasks.length = n + 1
  mounts : ∀ m, n < m → s.mounts m = none
  info : ∃ info, s.mounts n = some info ∧ info.mountOpts.statsMode = .none

theorem Filling.goes {acts acts' : List Act} (h : Filling n acts s)
    (ht : s'.tasks = s.tasks.set n ⟨n, true, acts', 0⟩) (hm : ∀ m, n < m → s'.mounts m = s.mounts m)
    (hi : ∃ info, s'.mounts n = some info ∧ info.mountOpts.statsMode = .none) :
    Filling n acts' s' where
  task := by rw [ht, List.getElem?_set_self (h.length ▸ Nat.lt_succ_self n)]
  sb := ht ▸ forall_mem_set h.sb (Nat.lt_succ_self n)
  length := by rw [ht, List.length_set, h.length]
  mounts m hlt := (hm m hlt).trans (h.mounts m hlt)
  info := hi

/-- A mount, and its control device. -/
theorem Filled.mount (h : Filled n s) (hn : n ≤ binderfsMaxMinor) : ∃ s₁ s₂,
    s.exec noDevices (.mount n 0 none false (fun _ => true) none) = some s₁ ∧
      s₁.minors = Finset.range n ∧ s₁.exec noDevices (.run n (.minor n)) = some s₂ ∧
      s₂.minors = Finset.range (n + 1) ∧ Filling n [.devices [], .stats] s₂ := by
  have hidle : s.idle n = true := List.all_eq_true.mpr fun t ht => by
    simp [Nat.ne_of_lt (h.sb t ht)]
  have hfree := h.mounts n (Nat.le_refl n)
  have hmount : s.exec noDevices (.mount n 0 none false (fun _ => true) none) =
      some (s.fillSuper noDevices n 0 none false (fun _ => true) none) := by
    simp [Fs.exec, guard, hidle, hfree]
  generalize hs₁ : s.fillSuper noDevices n 0 none false (fun _ => true) none = s₁ at hmount
  have hminors : s₁.minors = Finset.range n := by
    subst hs₁
    exact h.minors
  have htasks : s₁.tasks = s.tasks ++ [⟨n, true, [.ctl, .devices [], .stats], 0⟩] := by
    subst hs₁
    rfl
  have hinfo : s₁.mounts n =
      some ⟨0, none, ⟨binderfsMaxMinor, .none⟩, 0, some s.inodes.length, .filling⟩ := by
    subst hs₁
    exact Function.update_self ..
  have hothers (m : MountId) (hlt : n < m) : s₁.mounts m = none := by
    subst hs₁
    refine (Function.update_of_ne (Nat.ne_of_gt hlt) ..).trans ?_
    exact (Function.update_of_ne (Nat.ne_of_gt hlt) ..).trans (h.mounts m (Nat.le_of_lt hlt))
  have hfilling : Filling n [.ctl, .devices [], .stats] s₁ := by
    refine ⟨?_, ?_, ?_, hothers, _, hinfo, rfl⟩
    · rw [htasks, ← h.length, List.getElem?_concat_length]
    · rw [htasks]
      exact forall_mem_append (fun t ht => Nat.lt_succ_of_lt (h.sb t ht)) (Nat.lt_succ_self n)
    · rw [htasks, List.length_append, h.length]
      rfl
  have hfresh : n ∉ s₁.minors := by rw [hminors]; simp
  refine ⟨s₁, (Fs.link (Fs.setMount { s₁ with minors := insert n s₁.minors } n (some ⟨0,
    some s₁.inodes.length, ⟨binderfsMaxMinor, .none⟩, 0, some s.inodes.length, .filling⟩))
      { deviceInode noDevices n n .ctl with iPrivate := some (.device ⟨none, n⟩) } s.inodes.length
        binderControl).setTask n ⟨n, true, [.ctl, .devices [], .stats], 0⟩ [.devices [], .stats],
    hmount, hminors, ?_, ?_, hfilling.goes rfl (fun m hlt => ?_) ⟨_, Function.update_self .., rfl⟩⟩
  · simp [Fs.exec, hfilling.task, Fs.runAct, Fs.ctlCreate, hinfo, guard, Fs.idaAllocMax, hfresh,
      maxMinor, useReserve, noDevices, hn, Fs.setMount]
  · rw [Finset.range_add_one, ← hminors]
    rfl
  · exact Function.update_of_ne (Nat.ne_of_gt hlt) ..

theorem Filling.done (h : Filling n [.devices [], .stats] s) (hm : s.minors = Finset.range (n + 1)) :
    ∃ s₁ s₂, s.exec noDevices (.run n .ok) = some s₁ ∧ s₁.exec noDevices (.run n .ok) = some s₂ ∧
      Filled (n + 1) s₂ := by
  obtain ⟨info, hinfo, hmode⟩ := h.info
  have hs₁ : s.exec noDevices (.run n .ok) =
      some (s.setTask n ⟨n, true, [.devices [], .stats], 0⟩ [.stats]) := by
    simp [Fs.exec, h.task, Fs.runAct, guard, Fs.devicesLoop]
  have h₁ : Filling n [.stats] (s.setTask n ⟨n, true, [.devices [], .stats], 0⟩ [.stats]) :=
    h.goes rfl (fun _ _ => rfl) h.info
  have hinfo₁ : (s.setTask n ⟨n, true, [.devices [], .stats], 0⟩ [.stats]).mounts n = some info := hinfo
  have hm₁ : (s.setTask n ⟨n, true, [.devices [], .stats], 0⟩ [.stats]).minors = Finset.range (n + 1) :=
    hm
  generalize s.setTask n ⟨n, true, [.devices [], .stats], 0⟩ [.stats] = s₁ at hs₁ h₁ hinfo₁ hm₁
  have hs₂ : s₁.exec noDevices (.run n .ok) = some (s₁.fillDone n ⟨n, true, [.stats], 0⟩ info) := by
    simp [Fs.exec, h₁.task, Fs.runAct, guard, hinfo₁, hmode]
  have h₂ : Filling n [] (s₁.fillDone n ⟨n, true, [.stats], 0⟩ info) :=
    h₁.goes rfl (fun m hlt => Function.update_of_ne (Nat.ne_of_gt hlt) ..)
      ⟨_, Function.update_self .., hmode⟩
  exact ⟨s₁, _, hs₁, hs₂, h₂.length, h₂.sb, h₂.mounts, hm₁⟩

/-- The mounts take one minor after the other. -/
theorem filled (hn : n ≤ binderfsMaxMinor + 1) :
    ∃ s, (fsSys noDevices).ReachIf inOrder s ∧ Filled n s := by
  induction n with
  | zero => exact ⟨Fs.start, .init rfl, rfl, nofun, fun _ _ => rfl, rfl⟩
  | succ n ih =>
    obtain ⟨s, hs, hfilled⟩ := ih (Nat.le_of_succ_le hn)
    obtain ⟨s₁, s₂, hs₁, hm₁, hs₂, hm₂, hfilling⟩ := hfilled.mount (Nat.le_of_succ_le_succ hn)
    obtain ⟨s₃, s₄, hs₃, hs₄, hdone⟩ := hfilling.done hm₂
    have hreach₁ := Sys.ReachIf.step hs (.of_none rfl) hs₁
    have hreach₂ := hreach₁.step (fun k hk => by cases hk; exact hm₁) hs₂
    exact ⟨s₄, (hreach₂.step (.of_none rfl) hs₃).step (.of_none rfl) hs₄, hdone⟩

/-- Mounts in the initial namespace until the minor `BINDERFS_MAX_MINOR` is assigned. -/
theorem minor_outside : ¬ ∀ (past : List (Fs × FsOp)) (s : Fs), (fsSys noDevices).Run past s →
    (∀ x ∈ past, Least x.1 x.2) → ∀ x ∈ past, ∀ k, x.2.choice.id = some k →
      k < 2 ^ minorbits ∧ majorOf (mkdev noDevices.major k) = noDevices.major := by
  intro hall
  obtain ⟨s, hs, hfilled⟩ := filled (Nat.le_succ binderfsMaxMinor)
  obtain ⟨s₁, s₂, hs₁, hm₁, hs₂, -, -⟩ := hfilled.mount (Nat.le_refl _)
  obtain ⟨past, hrun, hpast⟩ := (Sys.ReachIf.step hs (.of_none rfl) hs₁).run
  have hlast : inOrder s₁ (.run binderfsMaxMinor (.minor binderfsMaxMinor)) := fun k hk => by
    cases hk
    exact hm₁
  have hvalid := hall _ s₂ (.step hrun hs₂)
    (List.forall_mem_cons.mpr ⟨.of_inOrder hlast, fun x hx => .of_inOrder (hpast x hx)⟩)
    _ List.mem_cons_self _ rfl
  exact Nat.lt_irrefl _ hvalid.1

end Redroid.Binderfs
