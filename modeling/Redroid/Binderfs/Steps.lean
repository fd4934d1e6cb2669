import Redroid.Binderfs.Fs

/-!
# The steps of a call

`ActStep` lists what the next act of a call can do; `runAct_cases` says that this is all.
-/

namespace Redroid.Binderfs

open Fs

variable {cfg : Config} {s s' : Fs} {j : Nat} {t : Task} {rest : List Act} {act : Act} {c : Choice}

/-- The inode of a call, before it has a device. -/
inductive Pending (cfg : Config) (m : MountId) (k : Nat) : Option Inode → Prop
  | none : Pending cfg m k none
  | binder : Pending cfg m k (some (deviceInode cfg m k .binder))

/-- The act fails; what is left to do then. -/
inductive Refuses (cfg : Config) (m : MountId) : Act → List Act → Prop
  | reserve {req} : Refuses cfg m (.reserve req) []
  | prepare {k req I} : Pending cfg m k I → Refuses cfg m (.prepare k req) [.undo k, .iput I]
  | attach {k I name} : Refuses cfg m (.attach k I name) [.undo k, .iput (some I)]
  | ctl : Refuses cfg m .ctl []
  | ctlInode : Refuses cfg m .ctl [.iput (some ⟨m, .reg, 0, .dir, none, 0⟩)]
  | logs {dir entries} : Refuses cfg m (.logs dir entries) []

/-- The act changes nothing but what comes next. -/
inductive Goes (cfg : Config) (m : MountId) (rest : List Act) : Act → List Act → Prop
  | prepare {k req} :
      Goes cfg m rest (.prepare k req) (.attach k (deviceInode cfg m k .binder) req.cname :: rest)
  | iput : Goes cfg m rest (.iput none) rest
  | ctl : Goes cfg m rest .ctl rest
  | devicesEnd {param} : Goes cfg m rest (.devices param) rest
  | devices {param name param'} :
      Goes cfg m rest (.devices param) (.reserve ⟨name, false⟩ :: .devices param' :: rest)
  | stats : Goes cfg m rest .stats [.logs none logEntries]

/-- What the next act of the call `j` can do. -/
inductive ActStep (cfg : Config) (s : Fs) (j : Nat) (t : Task) (rest : List Act) :
    Choice → Act → Fs → Prop
  | refuse {c act acts ret} : c.id = none → Refuses cfg t.sb act acts → ret < 0 →
      ActStep cfg s j t rest c act (s.failTask j t ret acts)
  | goes {act acts} : Goes cfg t.sb rest act acts → ActStep cfg s j t rest .ok act (s.setTask j t acts)
  | reserve {req k info} : s.mounts t.sb = some info → info.deviceCount + 1 ≤ info.mountOpts.max →
      k ∉ s.minors → k ≤ maxMinor cfg info →
      ActStep cfg s j t rest (.minor k) (.reserve req)
        (({ s with minors := insert k s.minors }.setMount t.sb
          (some { info with deviceCount := info.deviceCount + 1 })).setTask j t (.prepare k req :: rest))
  | attach {k I name info root} : s.mounts t.sb = some info → info.root = some root →
      s.positive root name = false →
      ActStep cfg s j t rest .ok (.attach k I name)
        ((s.link { I with iPrivate := some (.device ⟨some name, k⟩) } root name).setTask j t rest)
  | undo {k info} : s.mounts t.sb = some info →
      ActStep cfg s j t rest .ok (.undo k)
        (((s.setMount t.sb (some { info with deviceCount := info.deviceCount - 1 })).idaFree k).setTask
          j t rest)
  | iput {I s₁} : s.evictInode I = some s₁ →
      ActStep cfg s j t rest .ok (.iput (some I)) (s₁.setTask j t rest)
  | ctlLose {k info} : s.mounts t.sb = some info → info.controlDentry = none → k ∉ s.minors →
      k ≤ maxMinor cfg info →
      ActStep cfg s j t rest (.noDentry k) .ctl
        ({ s with minors := insert k s.minors }.failTask j t (-enomem)
          [.iput (some (deviceInode cfg t.sb k .ctl))])
  | ctl {k info root} : s.mounts t.sb = some info → info.root = some root →
      info.controlDentry = none → k ∉ s.minors → k ≤ maxMinor cfg info →
      ActStep cfg s j t rest (.minor k) .ctl
        ((({ s with minors := insert k s.minors }.setMount t.sb
            (some { info with controlDentry := some s.inodes.length })).link
          { deviceInode cfg t.sb k .ctl with iPrivate := some (.device ⟨none, k⟩) } root
            binderControl).setTask j t rest)
  | created {dir entries dir' entries' parent name I info} : s.mounts t.sb = some info → I.sb = t.sb →
      I.mode ≠ .chr →
      ActStep cfg s j t rest .ok (.logs dir entries)
        ((s.link I parent name).setTask j t [.logs dir' entries'])
  | done {act info} : s.mounts t.sb = some info →
      (act = .stats ∨ ∃ dir, act = .logs dir []) → ActStep cfg s j t rest .ok act (s.fillDone j t info)
  | killInode {i I info s'} : s.inode i = some I → s.mounts t.sb = some info → I.sb = t.sb →
      (s.setMount t.sb (some { info with phase := .dying })).dropInode i I = some s' →
      ActStep cfg s j t rest (.inode i) .kill s'
  | killDone {ipcRefs} : (∀ i I, s.inode i = some I → I.sb ≠ t.sb) →
      (∀ info, s.mounts t.sb = some info →
        ipcRefs = Function.update s.ipcRefs info.ipcNs (s.ipcRefs info.ipcNs - 1)) →
      (s.mounts t.sb = none → ipcRefs = s.ipcRefs) →
      ActStep cfg s j t rest .ok .kill
        (({ s with ipcRefs := ipcRefs }.setMount t.sb none).setTask j t rest)

theorem idaAllocMax_eq {max k : Nat} (h : s.idaAllocMax max k = some s') :
    k ∉ s.minors ∧ k ≤ max ∧ s' = { s with minors := insert k s.minors } := by
  obtain ⟨⟨h₁, h₂⟩, h⟩ := guard_bind h
  cases h
  exact ⟨h₁, h₂, rfl⟩

theorem neg_errno {e : Int} (h : 0 < e) : -e < 0 := by omega

/-- `createIn` fails, or there is one more file. -/
theorem createIn_cases {parent : InodeId} {name : Name} {dir : Bool} {next : InodeId → Act}
    (h : s.createIn j t parent name dir c next = some s') :
    (∃ ret, c.id = none ∧ ret < 0 ∧ s' = s.failTask j t ret []) ∨
    (c = .ok ∧ ∃ I, I.sb = t.sb ∧ I.mode ≠ .chr ∧
      s' = (s.link I parent name).setTask j t [next s.inodes.length]) := by
  unfold createIn at h
  split at h
  · obtain ⟨he, h⟩ := guard_bind h
    cases h
    exact .inl ⟨_, rfl, neg_errno he, rfl⟩
  · cases h
    refine .inl ⟨_, rfl, ?_, rfl⟩
    split <;> decide
  · split at h
    · cases h
      exact .inl ⟨_, rfl, by decide, rfl⟩
    · cases h
      refine .inr ⟨rfl, _, ?_, ?_, rfl⟩
      · split <;> rfl
      · split <;> nofun
  · cases h

theorem reserve_cases {req : Request} (h : s.reserve cfg j t rest req c = some s') :
    ActStep cfg s j t rest c (.reserve req) s' := by
  obtain ⟨info, hinfo, h⟩ := Option.bind_eq_some_iff.mp h
  dsimp only at h
  split at h
  · rename_i hmax
    split at h
    · obtain ⟨s₁, hs₁, h⟩ := Option.bind_eq_some_iff.mp h
      obtain ⟨hk, hle, rfl⟩ := idaAllocMax_eq hs₁
      cases h
      exact .reserve hinfo hmax hk hle
    · obtain ⟨he, h⟩ := guard_bind h
      cases h
      exact .refuse rfl .reserve (neg_errno he)
    · cases h
  · obtain ⟨rfl, h⟩ := guard_bind h
    cases h
    exact .refuse rfl .reserve (by decide)

theorem prepare_cases {k : Nat} {req : Request} (h : s.prepare cfg j t rest k req c = some s') :
    ActStep cfg s j t rest c (.prepare k req) s' := by
  dsimp only [Fs.prepare] at h
  split at h
  · cases h
    exact .refuse rfl (.prepare .none) (by decide)
  · cases h
    exact .refuse rfl (.prepare .none) (by decide)
  · cases h
    exact .refuse rfl (.prepare .binder) (by decide)
  · obtain ⟨-, h⟩ := guard_bind h
    cases h
    exact .refuse rfl (.prepare .binder) (by decide)
  · cases h
    exact .goes .prepare
  · cases h

theorem attach_cases {k : Nat} {I : Inode} {name : Name} (h : s.attach j t rest k I name c = some s') :
    ActStep cfg s j t rest c (.attach k I name) s' := by
  obtain ⟨info, hinfo, h⟩ := Option.bind_eq_some_iff.mp h
  obtain ⟨root, hroot, h⟩ := Option.bind_eq_some_iff.mp h
  split at h
  · obtain ⟨he, h⟩ := guard_bind h
    cases h
    exact .refuse rfl .attach (neg_errno he)
  · split at h
    · cases h
      exact .refuse rfl .attach (by decide)
    · rename_i hpos
      cases h
      exact .attach hinfo hroot (Bool.eq_false_iff.mpr hpos)
  · cases h

theorem ctlCreate_cases (h : s.ctlCreate cfg j t rest c = some s') :
    ActStep cfg s j t rest c .ctl s' := by
  obtain ⟨info, hinfo, h⟩ := Option.bind_eq_some_iff.mp h
  obtain ⟨root, hroot, h⟩ := Option.bind_eq_some_iff.mp h
  dsimp only at h
  split at h
  · cases h
    exact .refuse rfl .ctl (by decide)
  · obtain ⟨-, h⟩ := guard_bind h
    cases h
    exact .refuse rfl .ctl (by decide)
  · obtain ⟨⟨-, he⟩, h⟩ := guard_bind h
    cases h
    exact .refuse rfl .ctlInode (neg_errno he)
  · obtain ⟨hc, h⟩ := guard_bind h
    obtain ⟨s₁, hs₁, h⟩ := Option.bind_eq_some_iff.mp h
    obtain ⟨hk, hle, rfl⟩ := idaAllocMax_eq hs₁
    cases h
    exact .ctlLose hinfo hc hk hle
  · obtain ⟨hc, h⟩ := guard_bind h
    obtain ⟨s₁, hs₁, h⟩ := Option.bind_eq_some_iff.mp h
    obtain ⟨hk, hle, rfl⟩ := idaAllocMax_eq hs₁
    cases h
    exact .ctl hinfo hroot hc hk hle
  · obtain ⟨-, h⟩ := guard_bind h
    cases h
    exact .goes .ctl
  · cases h

theorem initBinderLogs_cases {info : Info} {dir : Option InodeId} {entries : List (Name × Bool)}
    (hinfo : s.mounts t.sb = some info) (h : s.initBinderLogs j t info c dir entries = some s') :
    ActStep cfg s j t rest c (.logs dir entries) s' := by
  have created {parent : InodeId} {name : Name} {isDir : Bool} (dir' : InodeId → InodeId)
      {entries' : List (Name × Bool)}
      (h : s.createIn j t parent name isDir c (fun i => .logs (some (dir' i)) entries') = some s') :
      ActStep cfg s j t rest c (.logs dir entries) s' := by
    rcases createIn_cases h with ⟨ret, hc, hret, rfl⟩ | ⟨rfl, I, hsb, hmode, rfl⟩
    · exact .refuse hc .logs hret
    · exact .created hinfo hsb hmode
  match dir, entries with
  | none, entries =>
    obtain ⟨root, -, h⟩ := Option.bind_eq_some_iff.mp h
    exact created id h
  | some dir, (name, isDir) :: entries => exact created (fun _ => dir) h
  | some dir, [] =>
    obtain ⟨rfl, h⟩ := guard_bind h
    cases h
    exact .done hinfo (.inr ⟨_, rfl⟩)

theorem killSuper_cases (h : s.killSuper j t rest c = some s') : ActStep cfg s j t rest c .kill s' := by
  unfold killSuper at h
  split at h
  · obtain ⟨I, hI, h⟩ := Option.bind_eq_some_iff.mp h
    obtain ⟨info, hinfo, h⟩ := Option.bind_eq_some_iff.mp h
    obtain ⟨⟨hsb, -⟩, h⟩ := guard_bind h
    exact .killInode hI hinfo hsb h
  · obtain ⟨hall, h⟩ := guard_bind h
    cases h
    have hnone (i : InodeId) (I : Inode) (hI : s.inode i = some I) : I.sb ≠ t.sb := by
      have hmem : some I ∈ s.inodes := List.mem_of_getElem? (Option.join_eq_some_iff.mp hI)
      simpa using List.all_eq_true.mp hall _ hmem
    cases hm : s.mounts t.sb with
    | none => exact .killDone hnone (fun _ h => by cases hm.symm.trans h) fun _ => rfl
    | some info =>
      exact .killDone hnone (fun _ h => by cases hm.symm.trans h; rfl) fun h => by cases hm.symm.trans h
  · cases h

/-- The next act does one of these. -/
theorem runAct_cases (h : s.runAct cfg j t rest c act = some s') : ActStep cfg s j t rest c act s' := by
  cases act with
  | reserve req => exact reserve_cases h
  | prepare k req => exact prepare_cases h
  | attach k I name => exact attach_cases h
  | undo k =>
    obtain ⟨rfl, h⟩ := guard_bind h
    obtain ⟨info, hinfo, h⟩ := Option.bind_eq_some_iff.mp h
    cases h
    exact .undo hinfo
  | iput I =>
    obtain ⟨rfl, h⟩ := guard_bind h
    cases I with
    | none =>
      cases h
      exact .goes .iput
    | some I =>
      obtain ⟨s₁, hs₁, h⟩ := Option.bind_eq_some_iff.mp h
      cases h
      exact .iput hs₁
  | ctl => exact ctlCreate_cases h
  | devices param =>
    obtain ⟨rfl, h⟩ := guard_bind h
    cases h
    dsimp only [devicesLoop]
    split
    · exact .goes .devicesEnd
    · exact .goes .devices
  | stats =>
    obtain ⟨rfl, h⟩ := guard_bind h
    obtain ⟨info, hinfo, h⟩ := Option.bind_eq_some_iff.mp h
    split at h
    · cases h
      exact .goes .stats
    · cases h
      exact .done hinfo (.inl rfl)
  | logs dir entries =>
    obtain ⟨info, hinfo, h⟩ := Option.bind_eq_some_iff.mp h
    exact initBinderLogs_cases hinfo h
  | kill => exact killSuper_cases h

end Redroid.Binderfs
