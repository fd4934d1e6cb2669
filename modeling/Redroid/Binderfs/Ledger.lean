import Redroid.Binderfs.Steps
import Redroid.Lib.Count

/-!
# Minors and device counts

* `Fs.weigh`: a sum over all minors that inodes and calls hold.
* `Effect`: a step gives a minor to a holder, takes it from one, or loses one, or does nothing of this.
* `Inv`: what holds between two steps of any calls.
* `devices_balanced`: `device_count` and `binderfs_minors` are right whenever no call is in progress.
-/

namespace Redroid.Binderfs

open Fs

/-! ## What is held -/

/-- A weight for a minor that a super block holds with an inode with this `i_fop`. -/
abbrev Weight := MountId → Fops → Nat → Nat

/-- The minor that the act holds. -/
def Act.minor : Act → Option Nat
  | .prepare k _ | .attach k _ _ | .undo k => some k
  | _ => none

def inodeWeight (f : Weight) (I : Inode) : Nat := I.device.elim 0 fun d => f I.sb I.fop d.minor

def actWeight (f : Weight) (m : MountId) (act : Act) : Nat := act.minor.elim 0 (f m .binder)

def actsWeight (f : Weight) (m : MountId) (acts : List Act) : Nat := (acts.map (actWeight f m)).sum

/-- The weight of all that is held. -/
def Fs.weigh (s : Fs) (f : Weight) : Nat :=
  (s.inodes.map fun o => o.elim 0 (inodeWeight f)).sum +
    (s.tasks.map fun t => actsWeight f t.sb t.acts).sum

/-- `device_count`, 0 if there is no such mount. -/
def Fs.count (s : Fs) (m : MountId) : Int := (s.mounts m).elim 0 Info.deviceCount

variable {cfg : Config} {s s' s₁ : Fs} {j k : Nat} {t t' : Task} {acts rest : List Act} {act : Act}
  {c : Choice} {m m' : MountId} {i : InodeId} {I : Inode} {info info' : Info} {f : Weight}
  {ret : Int} {o : Option Inode} {parent : InodeId} {name : Name} {op : FsOp}

@[simp] theorem inodeWeight_none (h : I.device = none) : inodeWeight f I = 0 := by
  simp [inodeWeight, h]

@[simp] theorem actsWeight_nil : actsWeight f m [] = 0 := rfl

@[simp] theorem actsWeight_cons :
    actsWeight f m (act :: acts) = act.minor.elim 0 (f m .binder) + actsWeight f m acts := rfl

@[simp] theorem actsWeight_append {acts' : List Act} :
    actsWeight f m (acts ++ acts') = actsWeight f m acts + actsWeight f m acts' := by
  simp [actsWeight]

@[simp] theorem actsWeight_onFail : actsWeight f m t.onFail = 0 := by
  rw [Task.onFail]
  split <;> rfl

theorem weigh_setTask (ht : s.tasks[j]? = some t) :
    (s.setTask j t acts).weigh f + actsWeight f t.sb t.acts = s.weigh f + actsWeight f t.sb acts := by
  have := sum_map_set (f := fun t => actsWeight f t.sb t.acts) { t with acts } ht
  dsimp only at this
  simp only [Fs.weigh, Fs.setTask]
  omega

theorem weigh_failTask (ht : s.tasks[j]? = some t) :
    (s.failTask j t ret acts).weigh f + actsWeight f t.sb t.acts =
      s.weigh f + actsWeight f t.sb acts := by
  have := sum_map_set (f := fun t => actsWeight f t.sb t.acts) { t with acts := acts ++ t.onFail, ret } ht
  simp only [actsWeight_append, actsWeight_onFail, Nat.add_zero] at this
  simp only [Fs.weigh, Fs.failTask]
  omega

theorem weigh_addTask : (s.addTask t).weigh f = s.weigh f + actsWeight f t.sb t.acts := by
  simp [Fs.weigh, Fs.addTask, Nat.add_assoc]

theorem weigh_link : (s.link I parent name).weigh f = s.weigh f + inodeWeight f I := by
  simp only [Fs.weigh, Fs.link, List.map_append, List.sum_append, List.map_cons, List.map_nil,
    List.sum_cons, List.sum_nil, Option.elim_some]
  omega

theorem weigh_setInode (hI : s.inode i = some I) :
    (s.setInode i o).weigh f + inodeWeight f I = s.weigh f + o.elim 0 (inodeWeight f) := by
  have := sum_map_set (f := fun o => o.elim 0 (inodeWeight f)) o (Option.join_eq_some_iff.mp hI)
  simp only [Option.elim_some] at this
  simp only [Fs.weigh, Fs.setInode]
  omega

theorem count_setMount :
    (s.setMount m (some info)).count m' = if m' = m then info.deviceCount else s.count m' := by
  simp only [Fs.count, Fs.setMount, Function.update_apply]
  split <;> rfl

theorem count_some (h : s.mounts m = some info) : s.count m = info.deviceCount := by simp [Fs.count, h]

/-- A change of the super block that leaves `device_count`. -/
theorem count_keep (m' : MountId) (info' : Info) (h : s.mounts m = some info)
    (hc : info'.deviceCount = info.deviceCount) :
    (s.setMount m (some info')).count m' = s.count m' := by
  rw [count_setMount]
  split
  · rename_i he
    rw [he, hc, count_some h]
  · rfl

/-! ## One step -/

/-- The super block that the step is about. -/
def FsOp.sb (s : Fs) : FsOp → Option MountId
  | .create m _ | .mount m .. | .unmount m | .remount m .. | .unlink m _ => some m
  | .openFile i | .release i | .evict i => (s.inode i).map Inode.sb
  | .run j _ => s.tasks[j]?.map Task.sb

/-- The choice of the step. -/
def FsOp.choice : FsOp → Choice
  | .run _ c => c
  | _ => .ok

/-- What a step about the super block `m` does to the minors. -/
inductive Effect (cfg : Config) (s : Fs) (m : MountId) (c : Choice) (s' : Fs) : Prop
  | keep : c.id = none → s'.minors = s.minors → (∀ f, s'.weigh f = s.weigh f) →
      (∀ m', (s.mounts m').isSome → (s'.mounts m').isSome → s'.count m' = s.count m') →
      Effect cfg s m c s'
  | take {k : Nat} (fop : Fops) {info : Info} : c = .minor k → s.mounts m = some info → k ∉ s.minors →
      k ≤ maxMinor cfg info →
      s'.minors = insert k s.minors → (∀ f, s'.weigh f = s.weigh f + f m fop k) →
      (∀ m', s'.count m' = s.count m' + if m' = m ∧ fop = .binder then 1 else 0) →
      Effect cfg s m c s'
  | give (k : Nat) (fop : Fops) : c.id = none → s'.minors = s.minors.erase k →
      (∀ f, s.weigh f = s'.weigh f + f m fop k) →
      (∀ m', s'.count m' = s.count m' - if m' = m then 1 else 0) →
      (fop = .binder ∨ ∀ info, s'.mounts m = some info → info.phase = .dying) → Effect cfg s m c s'
  | lose {k : Nat} {info : Info} : c = .noDentry k → s.mounts m = some info → k ∉ s.minors →
      k ≤ maxMinor cfg info → s'.minors = insert k s.minors → (∀ f, s'.weigh f = s.weigh f) →
      (∀ m', s'.count m' = s.count m') → Effect cfg s m c s'

/-- What an act says about the inode that it has. -/
def Act.Ok (cfg : Config) (m : MountId) : Act → Prop
  | .attach k I _ => I = deviceInode cfg m k .binder
  | .iput (some I) => I.device = none
  | _ => True

/-- The inodes: a device has its number, and the control device stays linked as long as the mount does
not go away. -/
structure Tree (cfg : Config) (s : Fs) : Prop where
  sb : ∀ i I, s.inode i = some I → (s.mounts I.sb).isSome
  device : ∀ i I d, s.inode i = some I → I.device = some d →
    I.rdev = mkdev cfg.major d.minor ∧ (I.fop = .binder ∨ I.fop = .ctl)
  control : ∀ i I d info, s.inode i = some I → I.device = some d → I.fop = .ctl →
    s.mounts I.sb = some info → info.phase ≠ .dying →
    info.controlDentry = some i ∧ ∃ e ∈ s.dentries, e.inode = i

/-- The devices of the super block `m`, without the control device. -/
def devicesOf (m : MountId) : Weight := fun m' fop _ => if m' = m ∧ fop = .binder then 1 else 0

/-- The invariant. -/
structure Inv (cfg : Config) (s : Fs) : Prop where
  tree : Tree cfg s
  acts : ∀ t ∈ s.tasks, ∀ act ∈ t.acts, act.Ok cfg t.sb
  headed : ∀ t ∈ s.tasks, ∀ act ∈ t.acts.tail, act.minor = none
  counted : ∀ m info, s.mounts m = some info → info.phase ≠ .dying →
    info.deviceCount = s.weigh (devicesOf m)

/-- `binderfs_evict_inode` takes the minor from a device. -/
theorem evictInode_cases (h : s.evictInode I = some s') : (I.device = none ∧ s' = s) ∨
    ∃ d info, I.device = some d ∧ s.mounts I.sb = some info ∧
      s' = (s.setMount I.sb (some { info with deviceCount := info.deviceCount - 1 })).idaFree d.minor := by
  unfold Fs.evictInode at h
  split at h
  · rename_i hd
    cases h
    exact .inl ⟨hd, rfl⟩
  · rename_i d hd
    obtain ⟨info, hinfo, h⟩ := Option.bind_eq_some_iff.mp h
    cases h
    exact .inr ⟨d, info, hd, hinfo, rfl⟩

theorem Pending.device {o : Option Inode} (h : Pending cfg m k o) (ho : o = some I) :
    I.device = Option.none := by
  cases h <;> cases ho
  rfl

theorem Refuses.ok (h : Refuses cfg m act acts) (hact : act.Ok cfg m) : ∀ a ∈ acts, a.Ok cfg m := by
  have iput {k : Nat} {o : Option Inode} (ho : ∀ I, o = some I → I.device = none) :
      ∀ a ∈ [Act.undo k, .iput o], a.Ok cfg m := by
    refine List.forall_mem_cons.mpr ⟨trivial, List.forall_mem_singleton.mpr ?_⟩
    cases o with
    | none => trivial
    | some I => exact ho I rfl
  cases h with
  | reserve | ctl | logs => nofun
  | prepare hp => exact iput fun I hI => hp.device hI
  | attach =>
    refine iput fun I hI => ?_
    cases hI
    obtain rfl : _ = _ := hact
    rfl
  | ctlInode => exact List.forall_mem_singleton.mpr (show Inode.device _ = none from rfl)

theorem Refuses.weight (h : Refuses cfg m act acts) :
    actsWeight f m acts = act.minor.elim 0 (f m .binder) := by
  cases h <;> rfl

theorem Goes.ok (h : Goes cfg m rest act acts) (hrest : ∀ a ∈ rest, a.Ok cfg m) :
    ∀ a ∈ acts, a.Ok cfg m := by
  cases h with
  | prepare => exact List.forall_mem_cons.mpr ⟨(rfl : _ = _), hrest⟩
  | iput | ctl | devicesEnd => exact hrest
  | devices => exact List.forall_mem_cons.mpr ⟨trivial, List.forall_mem_cons.mpr ⟨trivial, hrest⟩⟩
  | stats => exact List.forall_mem_singleton.mpr trivial

theorem actsWeight_headed (h : ∀ act ∈ rest, act.minor = none) : actsWeight f m rest = 0 := by
  induction rest with
  | nil => rfl
  | cons a rest ih =>
    obtain ⟨ha, hrest⟩ := List.forall_mem_cons.mp h
    rw [actsWeight_cons, ha, ih hrest]
    rfl

theorem minor_onFail : ∀ a ∈ t.onFail, a.minor = none := by
  rw [Task.onFail]
  split
  · exact List.forall_mem_singleton.mpr rfl
  · nofun

theorem Refuses.headed (h : Refuses cfg m act acts) :
    ∀ a ∈ (acts ++ t.onFail).tail, a.minor = none := by
  have hfail := minor_onFail (t := t)
  cases h with
  | reserve | ctl | logs => exact fun a ha => hfail a (List.mem_of_mem_tail ha)
  | prepare | attach => exact List.forall_mem_cons.mpr ⟨rfl, hfail⟩
  | ctlInode => exact hfail

theorem Goes.headed (h : Goes cfg m rest act acts) (hrest : ∀ a ∈ rest, a.minor = none) :
    ∀ a ∈ acts.tail, a.minor = none := by
  cases h with
  | prepare => exact hrest
  | iput | ctl | devicesEnd => exact fun a ha => hrest a (List.mem_of_mem_tail ha)
  | devices => exact List.forall_mem_cons.mpr ⟨rfl, hrest⟩
  | stats => nofun

theorem Goes.weight (h : Goes cfg m rest act acts) (hrest : ∀ a ∈ rest, a.minor = none) :
    actsWeight f m acts = act.minor.elim 0 (f m .binder) := by
  have hw : actsWeight f m rest = 0 := actsWeight_headed hrest
  cases h <;> simp [Act.minor, hw]

/-! ## The steps keep the invariant -/

theorem inode_setInode (hi : i < s.inodes.length) {i' : InodeId} :
    (s.setInode i o).inode i' = if i' = i then o else s.inode i' := by
  simp only [Fs.inode, Fs.setInode, List.getElem?_set]
  by_cases h : i' = i
  · subst h
    simp [hi]
  · rw [if_neg (Ne.symm h), if_neg h]

theorem lt_of_inode (h : s.inode i = some I) : i < s.inodes.length :=
  (List.getElem?_eq_some_iff.mp (Option.join_eq_some_iff.mp h)).1

theorem inode_append (hs : s'.inodes = s.inodes ++ [some I]) :
    s'.inode i = if i = s.inodes.length then some I else s.inode i := by
  simp only [Fs.inode, hs, List.getElem?_append, List.getElem?_singleton]
  rcases Nat.lt_trichotomy i s.inodes.length with hlt | rfl | hlt
  · rw [if_pos hlt, if_neg hlt.ne]
  · simp
  · rw [if_neg hlt.asymm, if_neg (by omega), if_neg hlt.ne', List.getElem?_eq_none hlt.le]

namespace Tree

/-- Nothing else of the state matters. -/
theorem congr (h : Tree cfg s) (hi : s'.inodes = s.inodes) (hd : s'.dentries = s.dentries)
    (hm : s'.mounts = s.mounts) : Tree cfg s' := by
  have hinode (i : InodeId) : s'.inode i = s.inode i := by rw [Fs.inode, Fs.inode, hi]
  refine ⟨fun i I hI => ?_, fun i I d hI => ?_, fun i I d info hI hdev hfop hinfo hph => ?_⟩
  · rw [hm]
    exact h.sb i I (hinode i ▸ hI)
  · exact h.device i I d (hinode i ▸ hI)
  · rw [hd]
    exact h.control i I d info (hinode i ▸ hI) hdev hfop (hm ▸ hinfo) hph

/-- The super block changes, but not its control device. -/
theorem setMount (h : Tree cfg s) (info' : Info) (hm : s.mounts m = some info)
    (hc : info'.phase ≠ .dying →
      (∀ i, info.controlDentry = some i → info'.controlDentry = some i) ∧ info.phase ≠ .dying) :
    Tree cfg (s.setMount m (some info')) := by
  refine ⟨fun i I hI => ?_, h.device, fun i I d info₁ hI hdev hfop hinfo hph => ?_⟩
  · simp only [Fs.setMount, Function.update_apply]
    split
    · rfl
    · exact h.sb i I hI
  · simp only [Fs.setMount, Function.update_apply] at hinfo
    split at hinfo
    · rename_i he
      cases hinfo
      obtain ⟨hcd, hph'⟩ := hc hph
      exact (h.control i I d info hI hdev hfop (he ▸ hm) hph').imp_left (hcd i)
    · exact h.control i I d info₁ hI hdev hfop hinfo hph

/-- A new mount. -/
theorem newMount (h : Tree cfg s) (info : Info) (hm : s.mounts m = none) : Tree cfg
    (s.setMount m (some info)) := by
  have hne {i : InodeId} {I : Inode} (hI : s.inode i = some I) : I.sb ≠ m := by
    rintro rfl
    have := h.sb i I hI
    rw [hm] at this
    cases this
  refine ⟨fun i I hI => ?_, h.device, fun i I d info₁ hI hdev hfop hinfo hph => ?_⟩
  · simp only [Fs.setMount, Function.update_of_ne (hne hI)]
    exact h.sb i I hI
  · simp only [Fs.setMount, Function.update_of_ne (hne hI)] at hinfo
    exact h.control i I d info₁ hI hdev hfop hinfo hph

/-- A mount without inodes is gone. -/
theorem dropMount (h : Tree cfg s) (hm : ∀ i I, s.inode i = some I → I.sb ≠ m) :
    Tree cfg (s.setMount m none) := by
  refine ⟨fun i I hI => ?_, h.device, fun i I d info₁ hI hdev hfop hinfo hph => ?_⟩
  · simp only [Fs.setMount, Function.update_of_ne (hm i I hI)]
    exact h.sb i I hI
  · simp only [Fs.setMount, Function.update_of_ne (hm i I hI)] at hinfo
    exact h.control i I d info₁ hI hdev hfop hinfo hph

/-- One more inode, with a dentry or without. -/
theorem append (h : Tree cfg s) (hi : s'.inodes = s.inodes ++ [some I])
    (hd : ∀ e ∈ s.dentries, e ∈ s'.dentries) (hm : s'.mounts = s.mounts) (hsb : (s.mounts I.sb).isSome)
    (hdev : ∀ d, I.device = some d → I.rdev = mkdev cfg.major d.minor ∧ (I.fop = .binder ∨ I.fop = .ctl))
    (hctl : ∀ d info, I.device = some d → I.fop = .ctl → s.mounts I.sb = some info →
      info.controlDentry = some s.inodes.length ∧ ∃ e ∈ s'.dentries, e.inode = s.inodes.length) :
    Tree cfg s' := by
  have old {i : InodeId} {J : Inode} (hJ : s'.inode i = some J) :
      (i = s.inodes.length ∧ J = I) ∨ s.inode i = some J := by
    rw [inode_append hi] at hJ
    split at hJ
    · rename_i he
      cases hJ
      exact .inl ⟨he, rfl⟩
    · exact .inr hJ
  refine ⟨fun i J hJ => ?_, fun i J d hJ hJd => ?_, fun i J d info hJ hJd hfop hinfo hph => ?_⟩
  · rw [hm]
    rcases old hJ with ⟨-, rfl⟩ | hJ
    · exact hsb
    · exact h.sb i J hJ
  · rcases old hJ with ⟨-, rfl⟩ | hJ
    · exact hdev d hJd
    · exact h.device i J d hJ hJd
  · rw [hm] at hinfo
    rcases old hJ with ⟨rfl, rfl⟩ | hJ
    · exact hctl d info hJd hfop hinfo
    · obtain ⟨hcd, e, he, hei⟩ := h.control i J d info hJ hJd hfop hinfo hph
      exact ⟨hcd, e, hd e he, hei⟩

/-- An inode goes away, with its dentry. -/
theorem drop (h : Tree cfg s) (hI : s.inode i = some I) :
    Tree cfg { s.setInode i none with dentries := s.dentries.filter (·.inode ≠ i) } := by
  have old {i' : InodeId} {J : Inode} (hJ : (s.setInode i none).inode i' = some J) :
      i' ≠ i ∧ s.inode i' = some J := by
    rw [inode_setInode (lt_of_inode hI)] at hJ
    split at hJ
    · cases hJ
    · rename_i hne
      exact ⟨hne, hJ⟩
  refine ⟨fun i' J hJ => h.sb i' J (old hJ).2, fun i' J d hJ => h.device i' J d (old hJ).2,
    fun i' J d info hJ hJd hfop hinfo hph => ?_⟩
  obtain ⟨hne, hJ⟩ := old hJ
  obtain ⟨hcd, e, he, rfl⟩ := h.control i' J d info hJ hJd hfop hinfo hph
  exact ⟨hcd, e, List.mem_filter.mpr ⟨he, by simpa using hne⟩, rfl⟩

/-- A dentry that is not the control dentry goes away. -/
theorem unlink (h : Tree cfg s) {e : Dentry} (he : ∀ I info, s.inode e.inode = some I →
    s.mounts I.sb = some info → info.controlDentry ≠ some e.inode) :
    Tree cfg { s with dentries := s.dentries.erase e } := by
  refine ⟨h.sb, h.device, fun i I d info hI hdev hfop hinfo hph => ?_⟩
  obtain ⟨hc, e', he', rfl⟩ := h.control i I d info hI hdev hfop hinfo hph
  refine ⟨hc, e', (List.mem_erase_of_ne ?_).mpr he', rfl⟩
  rintro rfl
  exact he I info hI hinfo hc

/-- An inode is opened or closed. -/
theorem opens (h : Tree cfg s) (hI : s.inode i = some I) {n : Nat} :
    Tree cfg (s.setInode i (some { I with opens := n })) := by
  have old {i' : InodeId} {J : Inode} (hJ : (s.setInode i (some { I with opens := n })).inode i' = some J) :
      ∃ J', s.inode i' = some J' ∧ J.sb = J'.sb ∧ J.device = J'.device ∧ J.rdev = J'.rdev ∧
        J.fop = J'.fop := by
    rw [inode_setInode (lt_of_inode hI)] at hJ
    split at hJ
    · rename_i he
      cases hJ
      exact ⟨I, he ▸ hI, rfl, rfl, rfl, rfl⟩
    · exact ⟨J, hJ, rfl, rfl, rfl, rfl⟩
  refine ⟨fun i' J hJ => ?_, fun i' J d hJ hJd => ?_, fun i' J d info hJ hJd hfop hinfo hph => ?_⟩
  all_goals obtain ⟨J', hJ', hsb, hdev, hrdev, hf⟩ := old hJ
  · rw [hsb]
    exact h.sb i' J' hJ'
  · rw [hrdev, hf]
    exact h.device i' J' d hJ' (hdev ▸ hJd)
  · exact h.control i' J' d info hJ' (hdev ▸ hJd) (hf ▸ hfop) (hsb ▸ hinfo) hph

end Tree

theorem dropInode_cases (h : s.dropInode i I = some s') : (I.device = none ∧
      s' = { s.setInode i none with dentries := s.dentries.filter (·.inode ≠ i) }) ∨
    ∃ d info, I.device = some d ∧ s.mounts I.sb = some info ∧
      s' = ({ s.setInode i none with dentries := s.dentries.filter (·.inode ≠ i) }.setMount I.sb
        (some { info with deviceCount := info.deviceCount - 1 })).idaFree d.minor :=
  evictInode_cases h

/-- An inode that goes away. -/
theorem dropInode_effect (hI : s.inode i = some I) (h : s.dropInode i I = some s') (hc : c.id = none)
    (hfop : ∀ d, I.device = some d →
      I.fop = .binder ∨ ∀ info, s.mounts I.sb = some info → info.phase = .dying) :
    Effect cfg s I.sb c s' := by
  rcases dropInode_cases h with ⟨hd, rfl⟩ | ⟨d, info, hd, hinfo, rfl⟩
  · refine .keep hc rfl (fun f => ?_) fun _ _ _ => rfl
    have := weigh_setInode (f := f) (o := none) hI
    rw [inodeWeight_none hd] at this
    exact this
  · refine .give d.minor I.fop hc rfl (fun f => ?_) (fun m' => ?_) ?_
    · have := weigh_setInode (f := f) (o := none) hI
      rw [inodeWeight, hd] at this
      exact this.symm
    · refine (count_setMount (s := s)).trans ?_
      split
      · rename_i he
        rw [he, count_some hinfo]
      · omega
    · refine (hfop d hd).imp_right fun hdying info' hinfo' => ?_
      simp only [Fs.idaFree, Fs.setMount, Function.update_self] at hinfo'
      cases hinfo'
      exact hdying info hinfo

theorem Tree.dropInode (ht : Tree cfg s) (hI : s.inode i = some I) (h : s.dropInode i I = some s') :
    Tree cfg s' := by
  rcases dropInode_cases h with ⟨-, rfl⟩ | ⟨d, info, -, hinfo, rfl⟩
  · exact ht.drop hI
  · have htree : Tree cfg ({ s.setInode i none with
        dentries := s.dentries.filter (·.inode ≠ i) }.setMount I.sb
          (some { info with deviceCount := info.deviceCount - 1 })) :=
      (ht.drop hI).setMount _ hinfo fun hph => ⟨fun _ h => h, hph⟩
    exact htree.congr rfl rfl rfl

theorem device_none_of_mode (h : I.mode ≠ .chr) : I.device = none := by
  unfold Inode.device
  split
  · rename_i hm _
    exact absurd hm h
  · rfl

/-- The next act of a call, on the minors. -/
theorem ActStep.effect (h : ActStep cfg s j t rest c act s') (ht : s.tasks[j]? = some t)
    (hacts : t.acts = act :: rest) (hok : act.Ok cfg t.sb) (hrest : ∀ a ∈ rest, a.minor = none) :
    Effect cfg s t.sb c s' := by
  have hw (f : Weight) : actsWeight f t.sb t.acts = act.minor.elim 0 (f t.sb .binder) := by
    rw [hacts, actsWeight_cons, actsWeight_headed hrest, Nat.add_zero]
  have hw' (f : Weight) (k : Nat) (hk : act.minor = some k) :
      actsWeight f t.sb t.acts = f t.sb .binder k := by rw [hw, hk, Option.elim_some]
  cases h with
  | refuse hc href =>
    refine .keep hc rfl (fun f => ?_) fun _ _ _ => rfl
    refine Nat.add_right_cancel ((weigh_failTask ht).trans ?_)
    rw [hw, href.weight]
  | goes hgo =>
    refine .keep rfl rfl (fun f => ?_) fun _ _ _ => rfl
    refine Nat.add_right_cancel ((weigh_setTask ht).trans ?_)
    rw [hw, hgo.weight hrest]
  | @reserve req k info hinfo hmax hk hle =>
    refine .take .binder rfl hinfo hk hle rfl (fun f => ?_) fun m' => ?_
    · refine Nat.add_right_cancel ((weigh_setTask ht).trans ?_)
      rw [hw, actsWeight_cons, actsWeight_headed hrest]
      rfl
    · refine (count_setMount (s := s)).trans ?_
      split
      · rename_i he
        simp [he, count_some hinfo]
      · rename_i he
        simp [he]
  | @attach k I name info root hinfo hroot hpos =>
    refine .keep rfl rfl (fun f => ?_) fun _ _ _ => rfl
    refine Nat.add_right_cancel ((weigh_setTask (s := s.link _ root name) ht).trans ?_)
    rw [weigh_link, hw' f k rfl, actsWeight_headed hrest]
    obtain rfl : I = deviceInode cfg t.sb k .binder := hok
    rfl
  | @undo k info hinfo =>
    refine .give k .binder rfl rfl (fun f => ?_) (fun m' => ?_) (.inl rfl)
    · have hstep : Fs.weigh (((s.setMount t.sb (some { info with
          deviceCount := info.deviceCount - 1 })).idaFree k).setTask j t rest) f +
          actsWeight f t.sb t.acts = s.weigh f + actsWeight f t.sb rest :=
        weigh_setTask ht
      rw [hw' f k rfl, actsWeight_headed hrest] at hstep
      exact hstep.symm
    · refine (count_setMount (s := s)).trans ?_
      split
      · rename_i he
        simp [he, count_some hinfo]
      · simp
  | @iput I s₁ hs₁ =>
    rcases evictInode_cases hs₁ with ⟨-, rfl⟩ | ⟨d, info, hd, -, -⟩
    · refine .keep rfl rfl (fun f => ?_) fun _ _ _ => rfl
      refine Nat.add_right_cancel ((weigh_setTask ht).trans ?_)
      rw [hw, actsWeight_headed hrest]
      rfl
    · have hnone : I.device = none := hok
      rw [hnone] at hd
      cases hd
  | @ctlLose k info hinfo hc hk hle =>
    refine .lose rfl hinfo hk hle rfl (fun f => ?_) fun _ => rfl
    refine Nat.add_right_cancel ((weigh_failTask ht).trans ?_)
    rw [hw]
    rfl
  | @ctl k info root hinfo hroot hc hk hle =>
    refine .take .ctl rfl hinfo hk hle rfl (fun f => ?_) fun m' => ?_
    · refine Nat.add_right_cancel ((weigh_setTask (s := Fs.link _ _ root binderControl) ht).trans ?_)
      rw [weigh_link, hw, actsWeight_headed hrest]
      rfl
    · have := count_keep m' { info with controlDentry := some s.inodes.length } hinfo rfl
      exact this.trans (by simp)
  | @created dir entries dir' entries' parent name I info hinfo hsb hmode =>
    refine .keep rfl rfl (fun f => ?_) fun _ _ _ => rfl
    refine Nat.add_right_cancel ((weigh_setTask (s := s.link I parent name) ht).trans ?_)
    have hdev : I.device = none := device_none_of_mode hmode
    rw [weigh_link, hw, inodeWeight_none hdev]
    rfl
  | @done act info hinfo hact =>
    refine .keep rfl rfl (fun f => ?_) fun m' _ _ =>
      count_keep m' { info with phase := info.phase.born } hinfo rfl
    refine Nat.add_right_cancel ((weigh_setTask ht).trans ?_)
    rcases hact with rfl | ⟨dir, rfl⟩ <;> rw [hw] <;> rfl
  | @killInode i I info s' hI hinfo hsb hs' =>
    have hcount (m' : MountId) : (s.setMount t.sb (some { info with phase := .dying })).count m' = s.count m' :=
      count_keep m' _ hinfo rfl
    have hdrop : Effect cfg (s.setMount t.sb (some { info with phase := .dying })) I.sb (.inode i) s' := by
      refine dropInode_effect hI hs' rfl fun d hd => .inr fun info' hinfo' => ?_
      simp only [hsb, Fs.setMount, Function.update_self] at hinfo'
      cases hinfo'
      rfl
    rw [hsb] at hdrop
    cases hdrop with
    | keep hc hm hw hk =>
      refine .keep hc hm hw fun m' h₁ h₂ => ?_
      rw [← hcount]
      refine hk m' ?_ h₂
      simp only [Fs.setMount, Function.update_apply]
      split
      · rfl
      · exact h₁
    | give k fop hc hm hw hk hfop => exact .give k fop hc hm hw (fun m' => by rw [hk, hcount]) hfop
    | take _ hc | lose hc => cases hc
  | killDone hnone =>
    refine .keep rfl rfl (fun f => ?_) fun m' h₁ h₂ => ?_
    · refine Nat.add_right_cancel ((weigh_setTask ht).trans ?_)
      rw [hw, actsWeight_headed hrest]
      rfl
    · simp only [Fs.setTask, Fs.setMount, Function.update_apply] at h₂
      split at h₂
      · cases h₂
      · rename_i hne
        simp [Fs.count, Fs.setTask, Fs.setMount, hne]

theorem Phase.born_dying {p : Phase} : p.born = .dying ↔ p = .dying := by cases p <;> simp [Phase.born]

/-- The mounts that do not go away were there before. -/
def Stays (s s' : Fs) : Prop := ∀ m info', s'.mounts m = some info' → info'.phase ≠ .dying →
  ∃ info, s.mounts m = some info ∧ info.phase ≠ .dying

theorem Stays.of_eq (hm : s'.mounts = s.mounts) : Stays s s' := fun _ info' h hph => ⟨info', hm ▸ h, hph⟩

theorem Stays.setMount (hm : s.mounts m = some info)
    (hs : s'.mounts = (s.setMount m (some info')).mounts)
    (hp : info'.phase ≠ .dying → info.phase ≠ .dying) : Stays s s' := by
  intro m' info₁ h hph
  rw [hs] at h
  simp only [Fs.setMount, Function.update_apply] at h
  split at h
  · rename_i he
    cases h
    exact ⟨info, he ▸ hm, hp hph⟩
  · exact ⟨info₁, h, hph⟩

theorem Stays.trans (h₁ : Stays s s₁) (h₂ : Stays s₁ s') : Stays s s' := fun m info' hm hp => by
  obtain ⟨info₁, hm₁, hp₁⟩ := h₂ m info' hm hp
  exact h₁ m info₁ hm₁ hp₁

theorem Stays.dropInode (h : s.dropInode i I = some s') : Stays s s' := by
  rcases dropInode_cases h with ⟨-, rfl⟩ | ⟨d, info, -, hinfo, rfl⟩
  · exact .of_eq rfl
  · exact .setMount hinfo rfl id

/-- `device_count` changes with the devices. -/
theorem Inv.counted_next (h : Inv cfg s) (he : Effect cfg s m c s') (hs : Stays s s') :
    ∀ m info, s'.mounts m = some info → info.phase ≠ .dying → info.deviceCount = s'.weigh (devicesOf m) := by
  intro m' info' hinfo' hph'
  obtain ⟨info, hinfo, hph⟩ := hs m' info' hinfo' hph'
  have hold := h.counted m' info hinfo hph
  rw [← count_some hinfo] at hold
  rw [← count_some hinfo']
  cases he with
  | keep _ _ hw hk => rw [hk m' (by rw [hinfo]; rfl) (by rw [hinfo']; rfl), hw, hold]
  | take _ _ _ _ _ _ hw hk =>
    rw [hk, hw, hold, devicesOf]
    by_cases he : m' = m
    · subst he
      split <;> simp_all
    · simp [he, Ne.symm he]
  | give _ _ _ _ hw hk hfop =>
    rw [hk, hold, hw, devicesOf]
    by_cases he : m' = m
    · have hb := hfop.resolve_right fun hd => hph' (hd info' (he ▸ hinfo'))
      simp [he, hb]
    · simp [he, Ne.symm he]
  | lose _ _ _ _ _ hw hk => rw [hk, hw, hold]

theorem forall_mem_set {p : Task → Prop} {ts : List Task} (h : ∀ t ∈ ts, p t) (ht : p t) :
    ∀ t' ∈ ts.set j t, p t' := fun t' ht' => (List.mem_or_eq_of_mem_set ht').elim (h t') fun he => he ▸ ht

/-- The acts of the calls, after a step of one of them. -/
theorem ActStep.tasks (h : ActStep cfg s j t rest c act s') (hi : Inv cfg s) (ht : t ∈ s.tasks)
    (hacts : t.acts = act :: rest) : (∀ t ∈ s'.tasks, ∀ act ∈ t.acts, act.Ok cfg t.sb) ∧
      ∀ t ∈ s'.tasks, ∀ act ∈ t.acts.tail, act.minor = none := by
  have hall := hi.acts t ht
  have hrest := hi.headed t ht
  rw [hacts] at hall hrest
  obtain ⟨hok, hoks⟩ := List.forall_mem_cons.mp hall
  have set {t' : Task} (hsb : t'.sb = t.sb) (h₁ : ∀ a ∈ t'.acts, a.Ok cfg t.sb)
      (h₂ : ∀ a ∈ t'.acts.tail, a.minor = none) :
      (∀ t ∈ s.tasks.set j t', ∀ act ∈ t.acts, act.Ok cfg t.sb) ∧
        ∀ t ∈ s.tasks.set j t', ∀ act ∈ t.acts.tail, act.minor = none :=
    ⟨forall_mem_set hi.acts (hsb ▸ h₁), forall_mem_set hi.headed h₂⟩
  have go : (∀ t' ∈ s.tasks.set j { t with acts := rest }, ∀ act ∈ t'.acts, act.Ok cfg t'.sb) ∧
      ∀ t' ∈ s.tasks.set j { t with acts := rest }, ∀ act ∈ t'.acts.tail, act.minor = none :=
    set rfl hoks fun a ha => hrest a (List.mem_of_mem_tail ha)
  have hfail : ∀ a ∈ t.onFail, a.Ok cfg t.sb := by
    rw [Task.onFail]
    split
    · exact List.forall_mem_singleton.mpr trivial
    · nofun
  cases h with
  | refuse _ href => exact set rfl (List.forall_mem_append.mpr ⟨href.ok hok, hfail⟩) href.headed
  | goes hgo => exact set rfl (hgo.ok hoks) (hgo.headed hrest)
  | reserve => exact set rfl (List.forall_mem_cons.mpr ⟨trivial, hoks⟩) hrest
  | attach | undo | ctl | killDone => exact go
  | iput hs₁ =>
    rcases evictInode_cases hs₁ with ⟨-, rfl⟩ | ⟨d, info, -, -, rfl⟩ <;> exact go
  | ctlLose =>
    exact set rfl (List.forall_mem_cons.mpr ⟨(show Inode.device _ = none from rfl), hfail⟩)
      minor_onFail
  | created => exact set rfl (List.forall_mem_singleton.mpr trivial) nofun
  | done => exact set rfl nofun nofun
  | killInode hI hinfo hsb hs' =>
    rcases dropInode_cases hs' with ⟨-, rfl⟩ | ⟨d, info, -, -, rfl⟩ <;> exact ⟨hi.acts, hi.headed⟩

theorem ActStep.tree (h : ActStep cfg s j t rest c act s') (hi : Inv cfg s) (ht : t ∈ s.tasks)
    (hacts : t.acts = act :: rest) : Tree cfg s' ∧ Stays s s' := by
  have hok := hi.acts t ht
  rw [hacts] at hok
  have hok := hok act List.mem_cons_self
  cases h with
  | refuse | goes | ctlLose => exact ⟨hi.tree.congr rfl rfl rfl, .of_eq rfl⟩
  | @reserve req k info hinfo hmax hk hle =>
    have htree := hi.tree.setMount { info with deviceCount := info.deviceCount + 1 } hinfo
      fun hph => ⟨fun _ h => h, hph⟩
    exact ⟨htree.congr rfl rfl rfl, .setMount hinfo rfl id⟩
  | @attach k I name info root hinfo hroot hpos =>
    obtain rfl : I = deviceInode cfg t.sb k .binder := hok
    refine ⟨hi.tree.append rfl (fun e he => List.mem_cons_of_mem _ he) rfl (by simp [deviceInode, hinfo])
      (fun d hd => ?_) nofun, .of_eq rfl⟩
    cases hd
    exact ⟨rfl, .inl rfl⟩
  | @undo k info hinfo =>
    have htree := hi.tree.setMount { info with deviceCount := info.deviceCount - 1 } hinfo
      fun hph => ⟨fun _ h => h, hph⟩
    exact ⟨htree.congr rfl rfl rfl, .setMount hinfo rfl id⟩
  | @iput I s₁ hs₁ =>
    rcases evictInode_cases hs₁ with ⟨-, rfl⟩ | ⟨d, info, hd, -, -⟩
    · exact ⟨hi.tree.congr rfl rfl rfl, .of_eq rfl⟩
    · have hnone : I.device = none := hok
      rw [hnone] at hd
      cases hd
  | @ctl k info root hinfo hroot hc hk hle =>
    have htree := hi.tree.setMount { info with controlDentry := some s.inodes.length } hinfo
      fun hph => ⟨fun i hi => (by rw [hc] at hi; cases hi), hph⟩
    refine ⟨htree.append rfl (fun e he => List.mem_cons_of_mem _ he) rfl (by simp [deviceInode, Fs.setMount])
      (fun d hd => ?_) (fun d info' hd _ hinfo' => ?_), .setMount hinfo rfl id⟩
    · cases hd
      exact ⟨rfl, .inr rfl⟩
    · simp only [deviceInode, Fs.setMount, Function.update_self] at hinfo'
      cases hinfo'
      exact ⟨rfl, _, List.mem_cons_self, rfl⟩
  | @created dir entries dir' entries' parent name I info hinfo hsb hmode =>
    have hdev : I.device = none := device_none_of_mode hmode
    exact ⟨hi.tree.append rfl (fun e he => List.mem_cons_of_mem _ he) rfl (by rw [hsb, hinfo]; rfl)
      (fun d hd => by rw [hdev] at hd; cases hd) (fun d _ hd => by rw [hdev] at hd; cases hd), .of_eq rfl⟩
  | @done act info hinfo hact =>
    have htree := hi.tree.setMount { info with phase := info.phase.born } hinfo
      fun hph => ⟨fun _ h => h, fun h => hph (Phase.born_dying.mpr h)⟩
    exact ⟨htree.congr rfl rfl rfl, .setMount hinfo rfl fun hph h => hph (Phase.born_dying.mpr h)⟩
  | @killInode i I info s' hI hinfo hsb hs' =>
    have htree := hi.tree.setMount { info with phase := .dying } hinfo fun hph => absurd rfl hph
    exact ⟨htree.dropInode hI hs', .trans (.setMount hinfo rfl fun h => absurd rfl h) (.dropInode hs')⟩
  | killDone hnone =>
    refine ⟨(hi.tree.dropMount hnone).congr rfl rfl rfl, fun m' info' hinfo' hph => ?_⟩
    simp only [Fs.setTask, Fs.setMount, Function.update_apply] at hinfo'
    split at hinfo'
    · cases hinfo'
    · exact ⟨info', hinfo', hph⟩

/-! ## All steps -/

theorem idle_acts (h : s.idle m = true) (ht : t ∈ s.tasks) (hm : t.sb = m) : t.acts = [] := by
  have := List.all_eq_true.mp h t ht
  simpa [hm] using this

/-- The weights agree on all that is held. -/
theorem weigh_congr {g : Weight} (hin : ∀ i I, s.inode i = some I → inodeWeight f I = inodeWeight g I)
    (hta : ∀ t ∈ s.tasks, actsWeight f t.sb t.acts = actsWeight g t.sb t.acts) :
    s.weigh f = s.weigh g := by
  rw [Fs.weigh, Fs.weigh, List.map_congr_left hta]
  congr 2
  refine List.map_congr_left fun o ho => ?_
  obtain ⟨i, hi⟩ := List.mem_iff_getElem?.mp ho
  cases o with
  | none => rfl
  | some I => exact hin i I (by rw [Fs.inode, hi]; rfl)

theorem weigh_zero : s.weigh (fun _ _ _ => 0) = 0 := by
  have hin (I : Inode) : inodeWeight (fun _ _ _ => 0) I = 0 := by
    rw [inodeWeight]
    cases I.device <;> rfl
  have hact (m : MountId) (act : Act) : actWeight (fun _ _ _ => 0) m act = 0 := by
    rw [actWeight]
    cases act.minor <;> rfl
  have hlist {α : Type} (xs : List α) : (xs.map fun _ => 0).sum = 0 := by simp
  have hacts : (fun t : Task => actsWeight (fun _ _ _ => 0) t.sb t.acts) = fun _ => 0 := by
    funext t
    rw [actsWeight, funext (hact t.sb), hlist]
  have hin' : (fun o : Option Inode => o.elim 0 (inodeWeight fun _ _ _ => 0)) = fun _ => 0 := by
    funext o
    cases o with
    | none => rfl
    | some I => exact hin I
  rw [Fs.weigh, hacts, hin', hlist, hlist]

/-- Nobody holds anything for a super block that is not there. -/
theorem weigh_absent {g : Weight} (h : Tree cfg s) (hm : s.mounts m = none) (hidle : s.idle m = true)
    (hfg : ∀ m' fop k, m' ≠ m → f m' fop k = g m' fop k) : s.weigh f = s.weigh g := by
  refine weigh_congr (fun i I hI => ?_) fun t ht => ?_
  · have hne : I.sb ≠ m := by
      rintro rfl
      have := h.sb i I hI
      rw [hm] at this
      cases this
    rw [inodeWeight, inodeWeight]
    cases I.device with
    | none => rfl
    | some d => exact hfg _ _ _ hne
  · by_cases hsb : t.sb = m
    · rw [idle_acts hidle ht hsb]
      rfl
    · refine congrArg List.sum (List.map_congr_left fun act _ => ?_)
      rw [actWeight, actWeight]
      cases act.minor with
      | none => rfl
      | some k => exact hfg _ _ _ hsb

theorem forall_mem_append {p : Task → Prop} {ts : List Task} (h : ∀ t ∈ ts, p t) (ht : p t) :
    ∀ t' ∈ ts ++ [t], p t' := List.forall_mem_append.mpr ⟨h, List.forall_mem_singleton.mpr ht⟩

/-- A step that touches no device and no act. -/
theorem Inv.quiet (h : Inv cfg s) (he : Effect cfg s m .ok s') (htree : Tree cfg s') (hst : Stays s s')
    (ht : s'.tasks = s.tasks) : Effect cfg s m .ok s' ∧ Inv cfg s' :=
  ⟨he, htree, ht ▸ h.acts, ht ▸ h.headed, h.counted_next he hst⟩

/-- A new call. -/
theorem Inv.addTask (h : Inv cfg s) (hok : ∀ act ∈ t.acts, act.Ok cfg t.sb ∧ act.minor = none) :
    Effect cfg s m .ok (s.addTask t) ∧ Inv cfg (s.addTask t) := by
  have he : Effect cfg s m .ok (s.addTask t) := by
    refine .keep rfl rfl (fun f => ?_) fun _ _ _ => rfl
    rw [weigh_addTask, actsWeight_headed fun act hact => (hok act hact).2, Nat.add_zero]
  exact ⟨he, h.tree.congr rfl rfl rfl, forall_mem_append h.acts fun act hact => (hok act hact).1,
    forall_mem_append h.headed fun act hact => (hok act (List.mem_of_mem_tail hact)).2,
    h.counted_next he (.of_eq rfl)⟩

/-- A file is opened or closed. -/
theorem Inv.reopen (h : Inv cfg s) (hI : s.inode i = some I) {n : Nat} :
    Effect cfg s I.sb .ok (s.setInode i (some { I with opens := n })) ∧
      Inv cfg (s.setInode i (some { I with opens := n })) := by
  refine h.quiet (.keep rfl rfl (fun f => ?_) fun _ _ _ => rfl) (h.tree.opens hI) (.of_eq rfl) rfl
  have := weigh_setInode (f := f) (o := some { I with opens := n }) hI
  exact Nat.add_right_cancel this

/-- A new super block, with a call that fills it. -/
theorem Inv.newMount (h : Inv cfg s) (hm : s.mounts m = none) (hidle : s.idle m = true)
    (htree : Tree cfg s') (hmounts : s'.mounts = Function.update s.mounts m (some info))
    (hcount : info.deviceCount = 0) (hminors : s'.minors = s.minors) (htasks : s'.tasks = s.tasks ++ [t])
    (hw : ∀ f, s'.weigh f = s.weigh f) (hok : ∀ act ∈ t.acts, act.Ok cfg t.sb ∧ act.minor = none) :
    Effect cfg s m .ok s' ∧ Inv cfg s' := by
  have hother {m' : MountId} (hne : m' ≠ m) : s'.mounts m' = s.mounts m' := by
    rw [hmounts, Function.update_of_ne hne]
  refine ⟨.keep rfl hminors hw fun m' h₁ _ => ?_, htree, ?_, ?_, fun m' info' hinfo' hph => ?_⟩
  · rw [Fs.count, Fs.count, hother]
    rintro rfl
    rw [hm] at h₁
    cases h₁
  · rw [htasks]
    exact forall_mem_append h.acts fun act hact => (hok act hact).1
  · rw [htasks]
    exact forall_mem_append h.headed fun act hact => (hok act (List.mem_of_mem_tail hact)).2
  · rw [hw]
    by_cases he : m' = m
    · subst he
      rw [hmounts, Function.update_self] at hinfo'
      cases hinfo'
      rw [hcount, weigh_absent (g := fun _ _ _ => 0) h.tree hm hidle, weigh_zero]
      · rfl
      · exact fun _ _ _ hne => if_neg fun hc => hne hc.1
    · exact h.counted m' info' (hother he ▸ hinfo') hph

theorem fillSuper_step (h : Inv cfg s) (hm : s.mounts m = none) (hidle : s.idle m = true)
    {ns : NsId} {data : Option (List UInt8)} {admin : Bool} {strdup : Nat → Bool}
    {fault : Option FillFault} :
    Effect cfg s m .ok (s.fillSuper cfg m ns data admin strdup fault) ∧
      Inv cfg (s.fillSuper cfg m ns data admin strdup fault) := by
  unfold fillSuper
  dsimp only
  have hkill : ∀ act ∈ [Act.kill], act.Ok cfg m ∧ act.minor = none :=
    List.forall_mem_singleton.mpr ⟨trivial, rfl⟩
  split
  · exact h.addTask hkill
  split
  · exact h.newMount hm hidle ((h.tree.newMount _ hm).congr rfl rfl rfl) rfl rfl rfl rfl
      (fun f => by rw [weigh_addTask]; rfl) hkill
  split
  · exact h.newMount hm hidle ((h.tree.newMount _ hm).congr rfl rfl rfl) rfl rfl rfl rfl
      (fun f => by rw [weigh_addTask]; rfl) hkill
  · have hmounts (info₁ info₂ : Info) :
        Function.update (Function.update s.mounts m (some info₁)) m (some info₂) =
          Function.update s.mounts m (some info₂) := Function.update_idem ..
    have htree := h.tree.newMount ⟨ns, none, (binderfsParseMountOpts cfg admin strdup data).2, 0,
      some s.inodes.length, .filling⟩ hm
    refine h.newMount hm hidle (htree.append rfl (fun _ he => he) (hmounts ..) ?_ nofun nofun)
      (hmounts ..) rfl rfl rfl (fun f => ?_) ?_
    · simp [Fs.setMount]
    · simp [Fs.weigh, Fs.addTask, Fs.setMount, inodeWeight, Inode.device, actsWeight, actWeight,
        Act.minor]
    · simp [Act.Ok, Act.minor]

/-- What a step does to the minors, and that it keeps the invariant. -/
theorem exec_step (h : Inv cfg s) (he : s.exec cfg op = some s') :
    ∃ m, op.sb s = some m ∧ Effect cfg s m op.choice s' ∧ Inv cfg s' := by
  cases op with
  | create m name =>
    obtain ⟨info, -, he⟩ := Option.bind_eq_some_iff.mp he
    obtain ⟨-, he⟩ := guard_bind he
    cases he
    exact ⟨m, rfl, h.addTask (List.forall_mem_singleton.mpr ⟨trivial, rfl⟩)⟩
  | mount m ns data admin strdup fault =>
    obtain ⟨⟨hm, hidle⟩, he⟩ := guard_bind he
    cases he
    exact ⟨m, rfl, fillSuper_step h hm hidle⟩
  | unmount m =>
    obtain ⟨info, hinfo, he⟩ := Option.bind_eq_some_iff.mp he
    obtain ⟨-, he⟩ := guard_bind he
    cases he
    have hcount (m' : MountId) := count_keep m' { info with phase := .dying } hinfo rfl
    have htree := h.tree.setMount { info with phase := .dying } hinfo fun hph => absurd rfl hph
    have hst : Stays s (s.setMount m (some { info with phase := .dying })) :=
      .setMount hinfo rfl fun hph => absurd rfl hph
    have heff : Effect cfg s m .ok (s.setMount m (some { info with phase := .dying })) :=
      .keep rfl rfl (fun _ => rfl) fun m' _ _ => hcount m'
    have hq := h.quiet heff htree hst rfl
    refine ⟨m, rfl, .keep rfl rfl (fun f => ?_) fun m' _ _ => hcount m',
      (hq.2.addTask (m := m) (List.forall_mem_singleton.mpr ⟨trivial, rfl⟩)).2⟩
    rw [weigh_addTask]
    rfl
  | remount m data admin strdup =>
    obtain ⟨info, hinfo, he⟩ := Option.bind_eq_some_iff.mp he
    obtain ⟨-, he⟩ := guard_bind he
    cases he
    refine ⟨m, rfl, h.quiet (.keep rfl rfl (fun _ => rfl) fun _ _ _ => count_keep _ _ hinfo rfl)
      (h.tree.setMount _ hinfo fun hph => ⟨fun _ h => h, hph⟩) (.setMount hinfo rfl id) rfl⟩
  | unlink m d =>
    obtain ⟨info, hinfo, he⟩ := Option.bind_eq_some_iff.mp he
    obtain ⟨⟨-, -, -, hctl⟩, he⟩ := guard_bind he
    obtain ⟨I, hI, he⟩ := Option.bind_eq_some_iff.mp he
    obtain ⟨⟨-, hsb⟩, he⟩ := guard_bind he
    cases he
    refine ⟨m, rfl, h.quiet (.keep rfl rfl (fun _ => rfl) fun _ _ _ => rfl) (h.tree.unlink ?_) (.of_eq rfl)
      rfl⟩
    intro I' info' hI' hinfo' hc
    cases hI.symm.trans hI'
    rw [hsb, hinfo] at hinfo'
    cases hinfo'
    exact hctl hc
  | openFile i =>
    obtain ⟨I, hI, he⟩ := Option.bind_eq_some_iff.mp he
    obtain ⟨info, hinfo, he⟩ := Option.bind_eq_some_iff.mp he
    obtain ⟨-, he⟩ := guard_bind he
    cases he
    exact ⟨I.sb, by simp [FsOp.sb, hI], h.reopen hI⟩
  | release i =>
    obtain ⟨I, hI, he⟩ := Option.bind_eq_some_iff.mp he
    obtain ⟨-, he⟩ := guard_bind he
    cases he
    exact ⟨I.sb, by simp [FsOp.sb, hI], h.reopen hI⟩
  | evict i =>
    obtain ⟨I, hI, he⟩ := Option.bind_eq_some_iff.mp he
    obtain ⟨⟨hlink, -⟩, he⟩ := guard_bind he
    have heff : Effect cfg s I.sb .ok s' := by
      refine dropInode_effect hI he rfl fun d hd => ?_
      refine (h.tree.device i I d hI hd).2.imp_right fun hfop info hinfo => ?_
      by_contra hph
      obtain ⟨-, e, he, hei⟩ := h.tree.control i I d info hI hd hfop hinfo hph
      rw [Fs.linked, Bool.or_eq_false_iff] at hlink
      have := List.any_eq_false.mp hlink.1 e he
      simp [hei] at this
    have htasks : s'.tasks = s.tasks := by
      rcases dropInode_cases he with ⟨-, rfl⟩ | ⟨d, info, -, -, rfl⟩ <;> rfl
    exact ⟨I.sb, by simp [FsOp.sb, hI], h.quiet heff (h.tree.dropInode hI he) (.dropInode he) htasks⟩
  | run j c =>
    obtain ⟨t, ht, he⟩ := Option.bind_eq_some_iff.mp he
    have hmem := List.mem_of_getElem? ht
    split at he
    · cases he
    · rename_i act rest hacts
      have hstep := runAct_cases he
      have hok := h.acts t hmem act (hacts ▸ List.mem_cons_self)
      have hrest := h.headed t hmem
      rw [hacts] at hrest
      have heff := hstep.effect ht hacts hok hrest
      obtain ⟨htree, hst⟩ := hstep.tree h hmem hacts
      obtain ⟨hacts', hheaded⟩ := hstep.tasks h hmem hacts
      exact ⟨t.sb, by simp [FsOp.sb, ht], heff, htree, hacts', hheaded, h.counted_next heff hst⟩

/-! ## Runs -/

/-- The minor that the step loses: `d_alloc_name` fails after `ida_alloc_max`. -/
def FsOp.lost : FsOp → Option Nat
  | .run _ (.noDentry k) => some k
  | _ => none

/-- How often the minor `k` was lost. -/
def lostIn (past : List (Fs × FsOp)) (k : Nat) : Nat := past.countP fun x => x.2.lost == some k

/-- The weight of the minor `k`. -/
def only (k : Nat) : Weight := fun _ _ k' => if k' = k then 1 else 0

theorem inv_start : Inv cfg Fs.start := by
  refine ⟨⟨?_, ?_, ?_⟩, nofun, nofun, nofun⟩
  all_goals
    intro i I
    simp [Fs.inode, Fs.start]

theorem inv_of_reach (h : (fsSys cfg).Reach s) : Inv cfg s :=
  h.inv (fun _ h0 => by cases h0; exact inv_start) fun _ _ _ hi hst =>
    let ⟨_, _, _, hi'⟩ := exec_step hi hst
    hi'

/-- A minor that is in use is held once, or was lost. -/
theorem ledger {past : List (Fs × FsOp)} (h : (fsSys cfg).Run past s) (k : Nat) :
    (if k ∈ s.minors then 1 else 0) = s.weigh (only k) + lostIn past k := by
  induction h with
  | init h0 =>
    cases h0
    rfl
  | @step past s s' op hrun hst ih =>
    obtain ⟨m, -, heff, -⟩ := exec_step (inv_of_reach hrun.reach) hst
    have hlost : lostIn ((s, op) :: past) k = lostIn past k + if op.lost = some k then 1 else 0 := by
      rw [lostIn, List.countP_cons]
      simp [lostIn]
    have hid {c : Choice} (hc : op.choice = c) (hne : ∀ k, c ≠ .noDentry k) : op.lost = none := by
      cases op with
      | run j c' =>
        obtain rfl : c' = c := hc
        cases c' with
        | noDentry k => exact absurd rfl (hne k)
        | _ => rfl
      | _ => rfl
    rw [hlost]
    cases heff with
    | keep hc hm hw =>
      rw [hm, hw, ih, hid rfl fun k hk => by rw [hk] at hc; cases hc]
      simp
    | @take k' fop info hc hinfo hk hle hm hw =>
      rw [hm, hw, hid hc nofun, only]
      by_cases he : k' = k
      · subst he
        rw [if_neg hk] at ih
        simp only [Finset.mem_insert_self, if_true, reduceCtorEq, if_false]
        omega
      · simp [Ne.symm he, he, ih]
    | @give k' fop hc hm hw =>
      rw [hw, only] at ih
      rw [hm, hid rfl fun k hk => by rw [hk] at hc; cases hc]
      by_cases he : k' = k
      · subst he
        simp only [if_true] at ih
        simp only [Finset.mem_erase, ne_eq, not_true_eq_false, false_and, if_false, reduceCtorEq]
        split at ih <;> omega
      · simp only [if_neg he] at ih
        simp [Ne.symm he, ih]
    | @lose k' info hc hinfo hk hle hm hw =>
      have hlost : op.lost = some k' := by
        cases op with
        | run j c =>
          obtain rfl : c = .noDentry k' := hc
          rfl
        | _ => cases hc
      rw [hm, hw, hlost]
      by_cases he : k' = k
      · subst he
        rw [if_neg hk] at ih
        simp only [Finset.mem_insert_self, if_true]
        omega
      · simp [Ne.symm he, he, ih]

/-- The steps of the call `j` alone, as long as its acts do not meet `stop`. -/
inductive Alone (cfg : Config) (j : Nat) (stop : List Act → Prop) (s : Fs) : Fs → Prop
  | refl : Alone cfg j stop s s
  | step {s₁ s' : Fs} {t : Task} {c : Choice} : Alone cfg j stop s s₁ → s₁.tasks[j]? = some t →
      ¬ stop t.acts → s₁.exec cfg (.run j c) = some s' → Alone cfg j stop s s'

/-- `binderfs_binder_device_create` is over: it goes on with `rest`, or has failed. -/
def Over (t : Task) (rest acts : List Act) : Prop := acts = rest ∨ acts = t.onFail

/-- The result of a call that fails, or 0, with the acts that are left; `rest` is what comes after the
call, and `k` the minor that it has. -/
inductive Stage (cfg : Config) (t : Task) (req : Request) (rest : List Act) (k : Nat) :
    Int → List Act → Prop
  | prepare : Stage cfg t req rest k t.ret (.prepare k req :: rest)
  | attach : Stage cfg t req rest k t.ret
      (.attach k (deviceInode cfg t.sb k .binder) req.cname :: rest)
  | undo {ret : Int} {I : Option Inode} : ret < 0 → (∀ I', I = some I' → I'.device = none) →
      Stage cfg t req rest k ret (.undo k :: .iput I :: t.onFail)

/-- Where a call of `binderfs_binder_device_create` is that began in the state `s` and runs alone. -/
inductive Creating (cfg : Config) (s : Fs) (j : Nat) (t : Task) (req : Request) (rest : List Act)
    (info : Info) : Fs → Prop
  | start : Creating cfg s j t req rest info s
  | reserved {k : Nat} {acts : List Act} {ret : Int} {tasks : List Task} : k ∉ s.minors →
      info.deviceCount + 1 ≤ info.mountOpts.max → Stage cfg t req rest k ret acts →
      tasks = s.tasks.set j ⟨t.sb, t.mounting, acts, ret⟩ →
      Creating cfg s j t req rest info { s with
        minors := insert k s.minors
        mounts := Function.update s.mounts t.sb (some { info with deviceCount := info.deviceCount + 1 })
        tasks := tasks }
  /-- Everything is as before; it is left to drop the inode. -/
  | undone {I : Option Inode} {ret : Int} {tasks : List Task} : ret < 0 →
      (∀ I', I = some I' → I'.device = none) →
      tasks = s.tasks.set j ⟨t.sb, t.mounting, .iput I :: t.onFail, ret⟩ →
      Creating cfg s j t req rest info { s with tasks := tasks }
  | failed {ret : Int} {tasks : List Task} : ret < 0 →
      tasks = s.tasks.set j ⟨t.sb, t.mounting, t.onFail, ret⟩ →
      Creating cfg s j t req rest info { s with tasks := tasks }
  | made {s' : Fs} {info' : Info} : s'.tasks = s.tasks.set j ⟨t.sb, t.mounting, rest, t.ret⟩ →
      s'.mounts t.sb = some info' → info'.deviceCount ≤ info'.mountOpts.max →
      Creating cfg s j t req rest info s'

theorem exec_run {t₁ : Task} (ht : s.tasks[j]? = some t₁) (hacts : t₁.acts = act :: rest)
    (h : s.exec cfg (.run j c) = some s') : ActStep cfg s j t₁ rest c act s' := by
  obtain ⟨t', ht', h⟩ := Option.bind_eq_some_iff.mp h
  cases ht.symm.trans ht'
  rw [hacts] at h
  exact runAct_cases h

theorem not_done (h : act = .stats ∨ ∃ dir, act = .logs dir []) (hact : act.minor.isSome) : False := by
  rcases h with rfl | ⟨dir, rfl⟩ <;> cases hact

theorem Creating.step {req : Request} {t₁ : Task} (h : Creating cfg s j t req rest info s₁)
    (ht : s.tasks[j]? = some t) (hacts : t.acts = .reserve req :: rest)
    (hinfo : s.mounts t.sb = some info) (ht₁ : s₁.tasks[j]? = some t₁) (hover : ¬ Over t rest t₁.acts)
    (he : s₁.exec cfg (.run j c) = some s') : Creating cfg s j t req rest info s' := by
  have hlt : j < s.tasks.length := (List.getElem?_eq_some_iff.mp ht).1
  have hset {t' t'' : Task} : (s.tasks.set j t').set j t'' = s.tasks.set j t'' := List.set_set ..
  have hself {t' : Task} : (s.tasks.set j t')[j]? = some t' := List.getElem?_set_self hlt
  cases h with
  | start =>
    cases ht.symm.trans ht₁
    cases exec_run ht hacts he with
    | refuse _ href hret =>
      cases href
      exact .failed hret rfl
    | goes hgo => cases hgo
    | @reserve _ k info' hinfo' hmax hk _ =>
      cases hinfo.symm.trans hinfo'
      exact .reserved hk hmax .prepare rfl
    | done _ hact => rcases hact with hact | ⟨_, hact⟩ <;> cases hact
  | @reserved k acts ret tasks hk hmax hstage htasks =>
    subst htasks
    cases hself.symm.trans ht₁
    cases hstage with
    | prepare =>
      cases exec_run hself rfl he with
      | refuse _ href hret =>
        cases href with
        | prepare hp => exact .reserved hk hmax (.undo hret fun I' hI' => hp.device hI') hset
      | goes hgo =>
        cases hgo
        exact .reserved hk hmax .attach hset
      | done _ hact => exact (not_done hact rfl).elim
    | attach =>
      cases exec_run hself rfl he with
      | refuse _ href hret =>
        cases href with
        | attach =>
          refine .reserved hk hmax (.undo hret fun I' hI' => ?_) hset
          cases hI'
          rfl
      | goes hgo => cases hgo
      | attach hinfo' hroot hpos => exact .made hset (Function.update_self ..) hmax
      | done _ hact => exact (not_done hact rfl).elim
    | @undo _ I hret hI =>
      cases exec_run hself rfl he with
      | refuse _ href => cases href
      | goes hgo => cases hgo
      | done _ hact => exact (not_done hact rfl).elim
      | @undo _ info' hinfo' =>
        have heq : info' = { info with deviceCount := info.deviceCount + 1 } :=
          Option.some.inj (hinfo'.symm.trans (Function.update_self ..))
        subst heq
        have hminors : (insert k s.minors).erase k = s.minors := Finset.erase_insert hk
        have hmounts : Function.update (Function.update s.mounts t.sb
            (some { info with deviceCount := info.deviceCount + 1 })) t.sb
            (some { info with deviceCount := info.deviceCount + 1 - 1 }) = s.mounts := by
          rw [Function.update_idem, Int.add_sub_cancel]
          exact Function.update_eq_self_iff.mpr hinfo.symm
        simp only [Fs.setTask, Fs.idaFree, Fs.setMount, hminors, hmounts]
        exact .undone hret hI hset
  | @undone I ret tasks hret hI htasks =>
    subst htasks
    cases hself.symm.trans ht₁
    cases exec_run hself rfl he with
    | refuse _ href => cases href
    | goes hgo =>
      cases hgo
      exact .failed hret hset
    | done _ hact => rcases hact with hact | ⟨_, hact⟩ <;> cases hact
    | @iput I' s₁ hs₁ =>
      rcases evictInode_cases hs₁ with ⟨-, rfl⟩ | ⟨d, info, hd, -, -⟩
      · exact .failed hret hset
      · rw [hI I' rfl] at hd
        cases hd
  | failed _ htasks =>
    subst htasks
    cases hself.symm.trans ht₁
    exact absurd (.inr rfl) hover
  | made htasks =>
    rw [htasks] at ht₁
    cases hself.symm.trans ht₁
    exact absurd (.inl rfl) hover

theorem creating_of_alone {req : Request} (h : Alone cfg j (Over t rest) s s')
    (ht : s.tasks[j]? = some t) (hacts : t.acts = .reserve req :: rest)
    (hinfo : s.mounts t.sb = some info) : Creating cfg s j t req rest info s' := by
  induction h with
  | refl => exact .start
  | step _ ht₁ hover he ih => exact ih.step ht hacts hinfo ht₁ hover he

theorem onFail_ne (h : act.minor.isSome) : t.onFail ≠ act :: rest := by
  rw [Task.onFail]
  split
  · rintro heq
    cases heq
    cases h
  · nofun

/-- A call that is over has changed nothing, or has passed the check of `max`. -/
theorem creating_over {req : Request} {t' : Task} (hi : Inv cfg s) (ht : s.tasks[j]? = some t)
    (hacts : t.acts = .reserve req :: rest) (hret : t.ret = 0)
    (h : Creating cfg s j t req rest info s') (ht' : s'.tasks[j]? = some t') (hover : Over t rest t'.acts) :
    (t'.ret ≠ 0 → s' = { s with tasks := s'.tasks }) ∧
      (t'.ret = 0 → ∃ info', s'.mounts t.sb = some info' ∧ info'.deviceCount ≤ info'.mountOpts.max) := by
  have hself {t' : Task} : (s.tasks.set j t')[j]? = some t' :=
    List.getElem?_set_self (List.getElem?_eq_some_iff.mp ht).1
  have undone {acts : List Act} {ret : Int} {tasks : List Task} (hneg : ret < 0)
      (htasks : tasks = s.tasks.set j ⟨t.sb, t.mounting, acts, ret⟩) (ht' : tasks[j]? = some t') :
      t'.ret ≠ 0 := by
    rw [htasks] at ht'
    cases hself.symm.trans ht'
    exact hneg.ne
  cases h with
  | start =>
    cases ht.symm.trans ht'
    rcases hover with heq | heq
    · rw [hacts] at heq
      exact absurd heq (List.cons_ne_self _ _)
    · rw [hacts, Task.onFail] at heq
      split at heq <;> cases heq
  | @reserved k acts ret tasks hk hmax hstage htasks =>
    subst htasks
    cases hself.symm.trans ht'
    rcases hover with rfl | heq
    · have hrest := hi.headed t (List.mem_of_getElem? ht)
      rw [hacts] at hrest
      cases hstage
      have := hrest (.undo k) List.mem_cons_self
      cases this
    · cases hstage <;> exact absurd heq.symm (onFail_ne rfl)
  | undone hneg _ htasks => exact ⟨fun _ => rfl, fun h => absurd h (undone hneg htasks ht')⟩
  | failed hneg htasks => exact ⟨fun _ => rfl, fun h => absurd h (undone hneg htasks ht')⟩
  | made htasks hinfo' hmax =>
    rw [htasks] at ht'
    cases hself.symm.trans ht'
    exact ⟨fun h => absurd hret h, fun _ => ⟨_, hinfo', hmax⟩⟩

/-- The devices, with the control devices. -/
def Fs.devices (s : Fs) : List Device := s.inodes.filterMap fun o => o.bind Inode.device

/-- The inode is that of a device of the mount `m`, and not its control device. -/
def Fs.isDeviceOf (m : MountId) (o : Option Inode) : Bool :=
  o.any fun I => I.device.isSome && I.sb == m && I.fop == .binder

/-- No call is in progress. -/
def Fs.calm (s : Fs) : Prop := ∀ t ∈ s.tasks, t.acts = []

theorem weigh_calm (h : s.calm) : s.weigh f = (s.inodes.map fun o => o.elim 0 (inodeWeight f)).sum := by
  have h₂ : (s.tasks.map fun t => actsWeight f t.sb t.acts).sum = 0 := by
    refine List.sum_eq_zero fun w hw => ?_
    obtain ⟨t, ht, rfl⟩ := List.mem_map.mp hw
    rw [h t ht]
    rfl
  rw [Fs.weigh, h₂, Nat.add_zero]

theorem weigh_devicesOf (h : s.calm) : s.weigh (devicesOf m) = s.inodes.countP (Fs.isDeviceOf m) := by
  rw [weigh_calm h]
  induction s.inodes with
  | nil => rfl
  | cons o os ih =>
    rw [List.map_cons, List.sum_cons, List.countP_cons, ih, Nat.add_comm]
    congr 1
    cases o with
    | none => rfl
    | some I =>
      simp only [Option.elim_some, inodeWeight, Fs.isDeviceOf, Option.any_some, devicesOf]
      obtain hd | ⟨d, hd⟩ := Option.eq_none_or_eq_some I.device <;> simp [hd]

theorem weigh_only (h : s.calm) : s.weigh (only k) = (s.devices.map Device.minor).count k := by
  rw [weigh_calm h, Fs.devices]
  induction s.inodes with
  | nil => rfl
  | cons o os ih =>
    rw [List.map_cons, List.sum_cons, ih]
    cases o with
    | none => simp
    | some I =>
      simp only [Option.elim_some, inodeWeight]
      cases hd : I.device with
      | none => simp [hd]
      | some d =>
        simp only [List.filterMap_cons, Option.bind_some, hd, List.map_cons, List.count_cons, only]
        simp [Nat.add_comm]

/-- In every run in which the control device of each mount gets its dentry, when no call is in progress,
`device_count` of a mount counts its devices that are not evicted, and the minors in use are those of all
devices and control devices, each of them once. A call that fails leaves everything as it was; one that
succeeds has passed the check of `max`. -/
theorem devices_balanced (cfg : Config) :
    (∀ s, (fsSys cfg).ReachIf (fun _ op => op.lost = none) s → s.calm →
      (∀ m info, s.mounts m = some info → info.phase = .mounted →
        info.deviceCount = s.inodes.countP (Fs.isDeviceOf m)) ∧
      s.minors.val = (s.devices.map Device.minor : List Nat)) ∧
    (∀ s, (fsSys cfg).Reach s → ∀ j t req rest info, s.tasks[j]? = some t →
      t.acts = .reserve req :: rest → t.ret = 0 → s.mounts t.sb = some info →
      ∀ s' t', Alone cfg j (Over t rest) s s' → s'.tasks[j]? = some t' → Over t rest t'.acts →
        (t'.ret ≠ 0 → s' = { s with tasks := s'.tasks }) ∧
        (t'.ret = 0 → ∃ info', s'.mounts t.sb = some info' ∧
          info'.deviceCount ≤ info'.mountOpts.max)) ∧
    (∀ s, (fsSys cfg).Reach s → ∀ j t req rest c s' k, s.tasks[j]? = some t →
      t.acts = .reserve req :: rest → s.exec cfg (.run j c) = some s' →
      s'.tasks[j]? = some { t with acts := .prepare k req :: rest } →
      ∃ info', s'.mounts t.sb = some info' ∧ info'.deviceCount ≤ info'.mountOpts.max) := by
  refine ⟨fun s h hcalm => ?_, fun s h j t req rest info ht hacts hret hinfo s' t' hrun ht' hover => ?_,
    fun s h j t req rest c s' k ht hacts he ht' => ?_⟩
  · obtain ⟨past, hrun, hkeeps⟩ := h.run
    refine ⟨fun m info hinfo hph => ?_, Multiset.ext.mpr fun k => ?_⟩
    · have := (inv_of_reach h.reach).counted m info hinfo (by rw [hph]; nofun)
      rw [this, weigh_devicesOf hcalm]
    · have hlost : lostIn past k = 0 := List.countP_eq_zero.mpr fun x hx => by
        rw [hkeeps x hx]
        simp
      have hk := ledger hrun k
      rw [hlost, weigh_only hcalm, Nat.add_zero] at hk
      rw [Multiset.coe_count, ← hk, Multiset.count_eq_of_nodup s.minors.nodup]
      rfl
  · exact creating_over (inv_of_reach h) ht hacts hret (creating_of_alone hrun ht hacts hinfo) ht' hover
  · cases exec_run ht hacts he with
    | refuse _ href =>
      cases href
      rw [Fs.failTask, List.getElem?_set_self (List.getElem?_eq_some_iff.mp ht).1] at ht'
      have hfail : t.onFail = .prepare k req :: rest := congrArg Task.acts (Option.some.inj ht')
      exact absurd hfail (onFail_ne rfl)
    | goes hgo => cases hgo
    | reserve hinfo hmax => exact ⟨_, Function.update_self .., hmax⟩
    | done _ hact => rcases hact with hact | ⟨_, hact⟩ <;> cases hact

/-- The default device `binder`, in the initial namespace 0. -/
def oneDevice : Config where
  major := 510
  initIpcNs := 0
  ipcNs := true
  devices := [98, 105, 110, 100, 101, 114]
  matchToken := fun _ => .err

/-- A mount with its control device and its default device, in the namespace `ns`. -/
def mountOne (ns : NsId) : List FsOp :=
  [.mount 0 ns none false (fun _ => true) none, .run 0 (.minor 0), .run 0 .ok, .run 0 (.minor 1),
    .run 0 .ok, .run 0 .ok, .run 0 .ok, .run 0 .ok]

/-- The state after this, in the initial namespace. -/
def mountedOne : Fs :=
  (Sys.execIf (Fs.exec oneDevice) (fun _ op => op.lost = none) Fs.start (mountOne 0)).get rfl

/-- A user asks for a device. -/
def asked (name : Name) : Fs := (mountedOne.exec oneDevice (.create 0 name)).get rfl

/-- The steps of the call 1 alone, as long as it is not over. -/
def createSys (s : Fs) : Sys Fs Choice := .ofExec (· = s) fun s c => s.exec oneDevice (.run 1 c)

def creating (s : Fs) : Bool := s.tasks[1]?.any fun t => t.acts ≠ []

theorem alone_of_reach {s s' : Fs} (h : (createSys s).ReachIf (fun s _ => creating s = true) s') :
    Alone oneDevice 1 (Over ⟨0, false, [], 0⟩ []) s s' := by
  induction h with
  | init h0 =>
    cases h0
    exact .refl
  | @step s₁ s' c _ hc hst ih =>
    obtain ⟨t, ht, hacts⟩ := (Option.any_eq_true ..).mp hc
    refine ih.step ht ?_ hst
    rintro (h | h) <;> simp [h, Task.onFail] at hacts

/-- One device of the mount is counted. A call for the name that is there fails with `-EEXIST`, and leaves
the state as it was; one for another name succeeds. -/
theorem devices_balanced_mountOne :
    ((∃ info, mountedOne.mounts 0 = some info ∧ info.deviceCount = 1 ∧
      info.deviceCount = mountedOne.inodes.countP (Fs.isDeviceOf 0)) ∧
    mountedOne.minors.val = (mountedOne.devices.map Device.minor : List Nat)) ∧
    (∃ s', Alone oneDevice 1 (Over ⟨0, false, [], 0⟩ []) (asked oneDevice.devices) s' ∧
      s'.tasks[1]? = some ⟨0, false, [], -eexist⟩ ∧
      s' = { asked oneDevice.devices with tasks := s'.tasks }) ∧
    ∃ s' info', Alone oneDevice 1 (Over ⟨0, false, [], 0⟩ []) (asked [98]) s' ∧
      s'.tasks[1]? = some ⟨0, false, [], 0⟩ ∧ s'.mounts 0 = some info' ∧
      info'.deviceCount ≤ info'.mountOpts.max := by
  have hreach : (fsSys oneDevice).ReachIf (fun _ op => op.lost = none) mountedOne :=
    Sys.ReachIf.execIf (.init rfl) (Option.some_get _).symm
  have hasked (name : Name) : (fsSys oneDevice).Reach (asked name) :=
    hreach.reach.next (a := .create 0 name) (Option.some_get _).symm
  have hcalm : mountedOne.calm := List.forall_mem_singleton.mpr rfl
  obtain ⟨hbalanced, hcreate, -⟩ := devices_balanced oneDevice
  obtain ⟨hcount, hminors⟩ := hbalanced mountedOne hreach hcalm
  refine ⟨⟨⟨_, rfl, rfl, hcount 0 _ rfl rfl⟩, hminors⟩, ?_, ?_⟩
  · obtain ⟨s', hs', ht'⟩ : ∃ s', Sys.execIf (fun s c => s.exec oneDevice (.run 1 c))
        (fun s _ => creating s = true) (asked oneDevice.devices) [.minor 2, .ok, .ok, .ok, .ok] = some s' ∧
        s'.tasks[1]? = some ⟨0, false, [], -eexist⟩ := ⟨_, rfl, rfl⟩
    have halone := alone_of_reach (Sys.ReachIf.execIf (.init rfl) hs')
    exact ⟨s', halone, ht', (hcreate _ (hasked _) 1 ⟨0, false, _, 0⟩ _ [] _ rfl rfl rfl rfl s' _ halone ht'
      (.inl rfl)).1 (by decide)⟩
  · obtain ⟨s', hs', ht'⟩ : ∃ s', Sys.execIf (fun s c => s.exec oneDevice (.run 1 c))
        (fun s _ => creating s = true) (asked [98]) [.minor 2, .ok, .ok] = some s' ∧
        s'.tasks[1]? = some ⟨0, false, [], 0⟩ := ⟨_, rfl, rfl⟩
    have halone := alone_of_reach (Sys.ReachIf.execIf (.init rfl) hs')
    obtain ⟨info', hinfo', hle⟩ := (hcreate _ (hasked _) 1 ⟨0, false, _, 0⟩ _ [] _ rfl rfl rfl rfl s' _ halone
      ht' (.inl rfl)).2 rfl
    exact ⟨s', info', halone, ht', hinfo', hle⟩

end Redroid.Binderfs
