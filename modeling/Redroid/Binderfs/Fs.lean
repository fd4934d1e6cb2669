import Mathlib.Algebra.Group.Nat.Defs
import Mathlib.Data.Finset.Basic
import Mathlib.Logic.Function.Basic
import Redroid.Lib.Sys

/-!
# binderfs

The mounts of binderfs, with their devices and the minors of all of them.

* `Fs` is the state: the ids in `binderfs_minors`, the super blocks with their `binderfs_info`, the
  inodes and dentries, and the calls in progress. An inode is its index; the index of an evicted inode
  is not used again. An inode that has no dentry yet is with the call that has made it.
* `Act` is what a call has to do next, one act for each part between two locks: `reserve`, `prepare`,
  `attach`, `undo` and `iput` are `binderfs_binder_device_create`; `ctl`, `devices`, `stats` and `logs`
  are `binderfs_fill_super`; `kill` is `binderfs_kill_super`.
* Allocations, `copy_to_user` and lookups succeed or fail, and `ida_alloc_max` returns an id or fails,
  with the `Choice` of the step.
* Not modelled: timestamps, modes and owners, inode numbers, and what is in the files.
-/

namespace Redroid.Binderfs

abbrev MountId := Nat
abbrev InodeId := Nat
abbrev NsId := Nat
abbrev Name := List UInt8

def enomem : Int := 12
def efault : Int := 14
def eexist : Int := 17
def einval : Int := 22
def enospc : Int := 28

/-- `MINORBITS` -/
def minorbits : Nat := 20

/-- `BINDERFS_MAX_MINOR` -/
def binderfsMaxMinor : Nat := 2 ^ minorbits

/-- `BINDERFS_MAX_MINOR_CAPPED` -/
def binderfsMaxMinorCapped : Nat := binderfsMaxMinor - 4

/-- `BINDERFS_MAX_NAME` -/
def binderfsMaxName : Nat := 255

/-- `MKDEV` -/
def mkdev (major minor : Nat) : Nat := major <<< minorbits ||| minor

/-- What `match_token` finds with the table `tokens`: `max=%d`, with the result of `match_int`;
`stats=%s`; or nothing. -/
inductive Token where
  | max (n : Option Int)
  | stats (arg : Name)
  | err
  deriving DecidableEq, Repr

/-- What does not change: `MAJOR(binderfs_dev)`, `get_init_ipc_ns_ptr()`, `CONFIG_IPC_NS`,
`binder_devices_param`, and `match_token`. -/
structure Config where
  major : Nat
  initIpcNs : NsId
  ipcNs : Bool
  devices : List UInt8
  matchToken : List UInt8 → Token

inductive StatsMode where
  | none | global
  deriving DecidableEq, Repr

/-- `struct binderfs_mount_opts` -/
structure MountOpts where
  max : Int
  statsMode : StatsMode
  deriving DecidableEq, Repr

/-- A super block is being filled, is mounted, or goes away. -/
inductive Phase where
  | filling | mounted | dying
  deriving DecidableEq, Repr

/-- The super block is filled. -/
def Phase.born : Phase → Phase
  | .filling => .mounted
  | phase => phase

/-- A super block with its `struct binderfs_info`. `controlDentry` is the inode of `control_dentry`. -/
structure Info where
  ipcNs : NsId
  controlDentry : Option InodeId
  mountOpts : MountOpts
  deviceCount : Int
  root : Option InodeId
  phase : Phase
  deriving DecidableEq, Repr

/-- `struct binder_device`: the part that binderfs reads. The control device has no name. -/
structure Device where
  name : Option Name
  minor : Nat
  deriving DecidableEq, Repr

/-- The type in `i_mode`. -/
inductive Mode where
  | chr | dir | reg
  deriving DecidableEq, Repr

/-- `i_fop` -/
inductive Fops where
  | binder | ctl | dir | log
  deriving DecidableEq, Repr

/-- `i_private` -/
inductive Private where
  | device (d : Device)
  | log (name : Name)
  deriving DecidableEq, Repr

/-- An inode. `opens` counts the files that are open on it. -/
structure Inode where
  sb : MountId
  mode : Mode
  rdev : Nat
  fop : Fops
  iPrivate : Option Private
  opens : Nat
  deriving DecidableEq, Repr

/-- The device that `binderfs_evict_inode` finds in an inode. -/
def Inode.device (I : Inode) : Option Device :=
  match I.mode, I.iPrivate with
  | .chr, some (.device d) => some d
  | _, _ => none

/-- A positive dentry. -/
structure Dentry where
  parent : InodeId
  name : Name
  inode : InodeId
  deriving DecidableEq, Repr

/-- `struct binderfs_device` with the bytes of `name`, and whether there is a `userp`. -/
structure Request where
  name : List UInt8
  user : Bool
  deriving DecidableEq, Repr

/-- The name as a string: it ends at the first NUL, and at `BINDERFS_MAX_NAME`. -/
def Request.cname (req : Request) : Name := (req.name.take binderfsMaxName).takeWhile (· ≠ 0)

/-- What a call has to do next. -/
inductive Act where
  /-- `binderfs_binder_device_create`, up to the first unlock. -/
  | reserve (req : Request)
  /-- Up to `inode_lock`. -/
  | prepare (minor : Nat) (req : Request)
  /-- From `inode_lock` to `inode_unlock`. -/
  | attach (minor : Nat) (inode : Inode) (name : Name)
  /-- The label `err`, up to its unlock; and then `iput`. -/
  | undo (minor : Nat)
  | iput (inode : Option Inode)
  /-- `binderfs_binder_ctl_create`; nobody else sees the mount yet. -/
  | ctl
  /-- The loop over what is left of `binder_devices_param`. -/
  | devices (param : List UInt8)
  /-- The end of `binderfs_fill_super`. -/
  | stats
  /-- `init_binder_logs`: the directory, then the entries that are left. -/
  | logs (dir : Option InodeId) (entries : List (Name × Bool))
  /-- `binderfs_kill_super` -/
  | kill
  deriving DecidableEq, Repr

/-- A call on the super block `sb`: `BINDER_CTL_ADD`, a mount or an unmount. `ret` is its result. -/
structure Task where
  sb : MountId
  mounting : Bool
  acts : List Act
  ret : Int
  deriving DecidableEq, Repr

structure Fs where
  minors : Finset Nat
  mounts : MountId → Option Info
  inodes : List (Option Inode)
  dentries : List Dentry
  tasks : List Task
  ipcRefs : NsId → Int

/-- How the things go that a step does not decide. -/
inductive Choice where
  | ok
  /-- `ida_alloc_max` returns `k`. -/
  | minor (k : Nat)
  /-- `ida_alloc_max` or the lookup returns the error `-e`. -/
  | error (e : Int)
  /-- `kzalloc`, `new_inode` or `kmemdup` fails. -/
  | noDevice | noInode | noName
  /-- `copy_to_user` fails. -/
  | fault
  /-- `d_alloc_name` fails, after `ida_alloc_max` has returned `k`. -/
  | noDentry (k : Nat)
  /-- `kill_litter_super` evicts the inode `i`. -/
  | inode (i : InodeId)
  deriving DecidableEq, Repr

/-- The id that `ida_alloc_max` returns. -/
def Choice.id : Choice → Option Nat
  | .minor k | .noDentry k => some k
  | _ => none

/-! ## Mount options -/

/-- `"global"` -/
def globalStats : Name := [103, 108, 111, 98, 97, 108]

/-- The loop of `binderfs_parse_mount_opts`: the result, and the options. `strdup`: which calls of
`match_strdup` succeed. -/
def parseLoop (cfg : Config) (admin : Bool) (strdup : Nat → Bool) :
    List (List UInt8) → MountOpts → Int × MountOpts
  | [], opts => (0, opts)
  | p :: ps, opts =>
    if p = [] then parseLoop cfg admin strdup ps opts
    else match cfg.matchToken p with
      | .max none => (-einval, opts)
      | .max (some n) =>
        if n < 0 ∨ n > binderfsMaxMinor then (-einval, opts)
        else parseLoop cfg admin strdup ps { opts with max := n }
      | .stats arg =>
        if !admin then (-einval, opts)
        else if !strdup ps.length then (-enomem, opts)
        else if arg ≠ globalStats then (-einval, opts)
        else parseLoop cfg admin strdup ps { opts with statsMode := .global }
      | .err => (-einval, opts)

/-- `binderfs_parse_mount_opts` -/
def binderfsParseMountOpts (cfg : Config) (admin : Bool) (strdup : Nat → Bool)
    (data : Option (List UInt8)) : Int × MountOpts :=
  parseLoop cfg admin strdup ((data.map (·.splitOn 44)).getD []) ⟨binderfsMaxMinor, .none⟩

/-- `binderfs_remount`, on the options. -/
def remountOpts (cfg : Config) (admin : Bool) (strdup : Nat → Bool) (data : Option (List UInt8))
    (opts : MountOpts) : Int × MountOpts :=
  let (ret, opts') := binderfsParseMountOpts cfg admin strdup data
  if ret ≠ 0 then (ret, opts')
  else if opts.statsMode ≠ opts'.statsMode then (-einval, { opts' with statsMode := opts.statsMode })
  else (0, opts')

/-! ## Names -/

/-- `"binder-control"` -/
def binderControl : Name := [98, 105, 110, 100, 101, 114, 45, 99, 111, 110, 116, 114, 111, 108]

/-- `"binder_logs"` -/
def binderLogs : Name := [98, 105, 110, 100, 101, 114, 95, 108, 111, 103, 115]

/-- `"stats"`, `"state"`, `"transactions"`, `"transaction_log"`, `"failed_transaction_log"` and
`"proc"`, with whether it is a directory. -/
def logEntries : List (Name × Bool) :=
  [([115, 116, 97, 116, 115], false), ([115, 116, 97, 116, 101], false),
    ([116, 114, 97, 110, 115, 97, 99, 116, 105, 111, 110, 115], false),
    ([116, 114, 97, 110, 115, 97, 99, 116, 105, 111, 110, 95, 108, 111, 103], false),
    ([102, 97, 105, 108, 101, 100, 95, 116, 114, 97, 110, 115, 97, 99, 116, 105, 111, 110, 95, 108,
      111, 103], false),
    ([112, 114, 111, 99], true)]

/-! ## The state -/

/-- The acts of a call after it has failed. -/
def Task.onFail (t : Task) : List Act := if t.mounting then [.kill] else []

namespace Fs

variable (cfg : Config) (s : Fs)

/-- The module is loaded, and nothing is mounted. -/
def start : Fs where
  minors := ∅
  mounts := fun _ => none
  inodes := []
  dentries := []
  tasks := []
  ipcRefs := fun _ => 0

/-- The inode `i`. -/
def inode (i : InodeId) : Option Inode := s.inodes[i]?.join

def setMount (m : MountId) (info : Option Info) : Fs :=
  { s with mounts := Function.update s.mounts m info }

def setInode (i : InodeId) (I : Option Inode) : Fs := { s with inodes := s.inodes.set i I }

/-- The inode `I` of a call gets a dentry, and the next index. -/
def link (I : Inode) (parent : InodeId) (name : Name) : Fs :=
  { s with
    inodes := s.inodes ++ [some I]
    dentries := ⟨parent, name, s.inodes.length⟩ :: s.dentries }

/-- The call `j` goes on with `acts`. -/
def setTask (j : Nat) (t : Task) (acts : List Act) : Fs :=
  { s with tasks := s.tasks.set j { t with acts } }

/-- The call `j` has failed with `ret`, and goes on with `acts`. -/
def failTask (j : Nat) (t : Task) (ret : Int) (acts : List Act) : Fs :=
  { s with tasks := s.tasks.set j { t with acts := acts ++ t.onFail, ret } }

def addTask (t : Task) : Fs := { s with tasks := s.tasks ++ [t] }

/-- All calls on the super block `m` are over. -/
def idle (m : MountId) : Bool := s.tasks.all fun t => t.sb != m || t.acts.isEmpty

/-- The inode has a dentry, or is the root of its mount. -/
def linked (i : InodeId) (I : Inode) : Bool :=
  s.dentries.any (·.inode == i) || (s.mounts I.sb).any (·.root == some i)

/-- `use_reserve`: the mount belongs to the initial namespace. -/
def useReserve (info : Info) : Bool := !cfg.ipcNs || info.ipcNs == cfg.initIpcNs

/-- The limit that `ida_alloc_max` gets for a mount. -/
def maxMinor (info : Info) : Nat :=
  if useReserve cfg info then binderfsMaxMinor else binderfsMaxMinorCapped

/-- `ida_alloc_max` returns an id that is not in use and not above `max`. -/
def idaAllocMax (max k : Nat) : Option Fs := do
  guard (k ∉ s.minors ∧ k ≤ max)
  some { s with minors := insert k s.minors }

/-- `ida_free` -/
def idaFree (k : Nat) : Fs := { s with minors := s.minors.erase k }

/-- `binderfs_evict_inode` -/
def evictInode (I : Inode) : Option Fs :=
  match I.device with
  | none => some s
  | some d => do
    let info ← s.mounts I.sb
    some ((s.setMount I.sb (some { info with deviceCount := info.deviceCount - 1 })).idaFree d.minor)

/-- The inode `i` goes away, with its dentry. -/
def dropInode (i : InodeId) (I : Inode) : Option Fs :=
  { s.setInode i none with dentries := s.dentries.filter (·.inode ≠ i) }.evictInode I

/-- `d_really_is_positive` of what the lookup finds. -/
def positive (parent : InodeId) (name : Name) : Bool :=
  s.dentries.any fun d => d.parent == parent && d.name == name

/-- `binderfs_create_dir` and `binderfs_create_file`, up to the new inode. -/
def createIn (j : Nat) (t : Task) (parent : InodeId) (name : Name) (dir : Bool) (c : Choice)
    (next : InodeId → Act) : Option Fs :=
  match c with
  | .error e => do
    guard (0 < e)
    some (s.failTask j t (-e) [])
  | .noInode =>
    some (s.failTask j t (if s.positive parent name then -eexist else -enomem) [])
  | .ok =>
    if s.positive parent name then some (s.failTask j t (-eexist) [])
    else
      let I : Inode := if dir then ⟨t.sb, .dir, 0, .dir, none, 0⟩
        else ⟨t.sb, .reg, 0, .log, some (.log name), 0⟩
      some ((s.link I parent name).setTask j t [next s.inodes.length])
  | _ => none

/-! ## The acts -/

/-- `binderfs_binder_device_create`, up to the first unlock. -/
def reserve (j : Nat) (t : Task) (rest : List Act) (req : Request) (c : Choice) : Option Fs := do
  let info ← s.mounts t.sb
  let info := { info with deviceCount := info.deviceCount + 1 }
  if info.deviceCount ≤ info.mountOpts.max then
    match c with
    | .minor k => do
      let s ← s.idaAllocMax (maxMinor cfg info) k
      some ((s.setMount t.sb (some info)).setTask j t (.prepare k req :: rest))
    | .error e => do
      guard (0 < e)
      some (s.failTask j t (-e) [])
    | _ => none
  else do
    guard (c = .ok)
    some (s.failTask j t (-enospc) [])

/-- The inode that a new device gets. -/
def deviceInode (m : MountId) (minor : Nat) (fop : Fops) : Inode :=
  ⟨m, .chr, mkdev cfg.major minor, fop, none, 0⟩

/-- Up to `inode_lock`. -/
def prepare (j : Nat) (t : Task) (rest : List Act) (k : Nat) (req : Request) (c : Choice) :
    Option Fs :=
  let I := deviceInode cfg t.sb k .binder
  match c with
  | .noDevice | .noInode => some (s.failTask j t (-enomem) [.undo k, .iput none])
  | .noName => some (s.failTask j t (-enomem) [.undo k, .iput (some I)])
  | .fault => do
    guard req.user
    some (s.failTask j t (-efault) [.undo k, .iput (some I)])
  | .ok => some (s.setTask j t (.attach k I req.cname :: rest))
  | _ => none

/-- From `inode_lock` to `inode_unlock`. -/
def attach (j : Nat) (t : Task) (rest : List Act) (k : Nat) (I : Inode) (name : Name) (c : Choice) :
    Option Fs := do
  let info ← s.mounts t.sb
  let root ← info.root
  match c with
  | .error e => do
    guard (0 < e)
    some (s.failTask j t (-e) [.undo k, .iput (some I)])
  | .ok =>
    if s.positive root name then some (s.failTask j t (-eexist) [.undo k, .iput (some I)])
    else
      let I := { I with iPrivate := some (.device ⟨some name, k⟩) }
      some ((s.link I root name).setTask j t rest)
  | _ => none

/-- The label `err`, up to its unlock. -/
def undo (j : Nat) (t : Task) (rest : List Act) (k : Nat) : Option Fs := do
  let info ← s.mounts t.sb
  some (((s.setMount t.sb (some { info with deviceCount := info.deviceCount - 1 })).idaFree k).setTask
    j t rest)

/-- `iput` of the new inode: the last reference to it, and there is no dentry. -/
def iput (j : Nat) (t : Task) (rest : List Act) : Option Inode → Option Fs
  | none => some (s.setTask j t rest)
  | some I => do
    let s ← s.evictInode I
    some (s.setTask j t rest)

/-- `binderfs_binder_ctl_create` -/
def ctlCreate (j : Nat) (t : Task) (rest : List Act) (c : Choice) : Option Fs := do
  let info ← s.mounts t.sb
  let root ← info.root
  match c with
  | .noDevice => some (s.failTask j t (-enomem) [])
  | .noInode => do
    guard (info.controlDentry = none)
    some (s.failTask j t (-enomem) [])
  | .error e => do
    guard (info.controlDentry = none ∧ 0 < e)
    some (s.failTask j t (-e) [.iput (some ⟨t.sb, .reg, 0, .dir, none, 0⟩)])
  | .noDentry k => do
    guard (info.controlDentry = none)
    let s ← s.idaAllocMax (maxMinor cfg info) k
    some (s.failTask j t (-enomem) [.iput (some (deviceInode cfg t.sb k .ctl))])
  | .minor k => do
    guard (info.controlDentry = none)
    let s ← s.idaAllocMax (maxMinor cfg info) k
    let I := { deviceInode cfg t.sb k .ctl with iPrivate := some (.device ⟨none, k⟩) }
    let s := s.setMount t.sb (some { info with controlDentry := some s.inodes.length })
    some ((s.link I root binderControl).setTask j t rest)
  | .ok => do
    guard (info.controlDentry.isSome)
    some (s.setTask j t rest)
  | _ => none

/-- One round of the loop over `binder_devices_param`. -/
def devicesLoop (j : Nat) (t : Task) (rest : List Act) (param : List UInt8) : Fs :=
  let name := param.takeWhile (· ≠ 44)
  if name = [] then s.setTask j t rest
  else s.setTask j t (.reserve ⟨name, false⟩ :: .devices ((param.drop name.length).drop 1) :: rest)

/-- `binderfs_fill_super` returns 0. -/
def fillDone (j : Nat) (t : Task) (info : Info) : Fs :=
  (s.setMount t.sb (some { info with phase := info.phase.born })).setTask j t []

/-- `init_binder_logs` -/
def initBinderLogs (j : Nat) (t : Task) (info : Info) (c : Choice) :
    Option InodeId → List (Name × Bool) → Option Fs
  | none, entries => do
    let root ← info.root
    s.createIn j t root binderLogs true c fun i => .logs (some i) entries
  | some dir, (name, isDir) :: entries => s.createIn j t dir name isDir c fun _ => .logs (some dir) entries
  | some _, [] => do
    guard (c = .ok)
    some (s.fillDone j t info)

/-- `binderfs_kill_super`: `kill_litter_super` evicts an inode, or has evicted all. -/
def killSuper (j : Nat) (t : Task) (rest : List Act) : Choice → Option Fs
  | .inode i => do
    let I ← s.inode i
    let info ← s.mounts t.sb
    guard (I.sb = t.sb ∧ I.opens = 0)
    (s.setMount t.sb (some { info with phase := .dying })).dropInode i I
  | .ok => do
    guard (s.inodes.all fun o => o.all fun I => I.sb != t.sb)
    let s := match s.mounts t.sb with
      | some info => { s with
          ipcRefs := Function.update s.ipcRefs info.ipcNs (s.ipcRefs info.ipcNs - 1) }
      | none => s
    some ((s.setMount t.sb none).setTask j t rest)
  | _ => none

/-- The next act of the call `j`, with `rest` after it. -/
def runAct (j : Nat) (t : Task) (rest : List Act) (c : Choice) : Act → Option Fs
  | .reserve req => s.reserve cfg j t rest req c
  | .prepare k req => s.prepare cfg j t rest k req c
  | .attach k I name => s.attach j t rest k I name c
  | .undo k => do
    guard (c = .ok)
    s.undo j t rest k
  | .iput I => do
    guard (c = .ok)
    s.iput j t rest I
  | .ctl => s.ctlCreate cfg j t rest c
  | .devices param => do
    guard (c = .ok)
    some (s.devicesLoop j t rest param)
  | .stats => do
    guard (c = .ok)
    let info ← s.mounts t.sb
    match info.mountOpts.statsMode with
    | .global => some (s.setTask j t [.logs none logEntries])
    | .none => some (s.fillDone j t info)
  | .logs dir entries => do
    let info ← s.mounts t.sb
    s.initBinderLogs j t info c dir entries
  | .kill => s.killSuper j t rest c

end Fs

/-! ## Runs -/

/-- Where `binderfs_fill_super` fails before `binderfs_binder_ctl_create`, apart from the options. -/
inductive FillFault where
  | noInfo | noInode | noRoot
  deriving DecidableEq, Repr

inductive FsOp where
  /-- `BINDER_CTL_ADD` -/
  | create (m : MountId) (name : List UInt8)
  /-- `binderfs_mount`, up to `binderfs_binder_ctl_create`. -/
  | mount (m : MountId) (ns : NsId) (data : Option (List UInt8)) (admin : Bool) (strdup : Nat → Bool)
      (fault : Option FillFault)
  /-- `umount`, up to `binderfs_kill_super`. -/
  | unmount (m : MountId)
  /-- `binderfs_remount` -/
  | remount (m : MountId) (data : Option (List UInt8)) (admin : Bool) (strdup : Nat → Bool)
  /-- `binderfs_unlink` -/
  | unlink (m : MountId) (d : Dentry)
  | openFile (i : InodeId)
  | release (i : InodeId)
  /-- The inode has no dentry and no user. -/
  | evict (i : InodeId)
  /-- The next act of the call `j`. -/
  | run (j : Nat) (c : Choice)

namespace Fs

variable (cfg : Config) (s : Fs)

/-- `binderfs_fill_super`, up to `binderfs_binder_ctl_create`. -/
def fillSuper (m : MountId) (ns : NsId) (data : Option (List UInt8)) (admin : Bool)
    (strdup : Nat → Bool) (fault : Option FillFault) : Fs :=
  let fail (s : Fs) (ret : Int) : Fs := s.addTask ⟨m, true, [.kill], ret⟩
  if fault = some .noInfo then fail s (-enomem)
  else
    let (ret, opts) := binderfsParseMountOpts cfg admin strdup data
    let info : Info := ⟨ns, none, opts, 0, none, .filling⟩
    let s := { s.setMount m (some info) with
      ipcRefs := Function.update s.ipcRefs ns (s.ipcRefs ns + 1) }
    if ret ≠ 0 then fail s ret
    else if fault.isSome then fail s (-enomem)
    else
      let root : Inode := ⟨m, .dir, 0, .dir, none, 0⟩
      ({ s with inodes := s.inodes ++ [some root] }.setMount m
        (some { info with root := some s.inodes.length })).addTask
          ⟨m, true, [.ctl, .devices cfg.devices, .stats], 0⟩

/-- One step. -/
def exec : FsOp → Option Fs
  | .create m name => do
    let info ← s.mounts m
    guard (info.phase = .mounted)
    some (s.addTask ⟨m, false, [.reserve ⟨name, true⟩], 0⟩)
  | .mount m ns data admin strdup fault => do
    guard (s.mounts m = none ∧ s.idle m = true)
    some (s.fillSuper cfg m ns data admin strdup fault)
  | .unmount m => do
    let info ← s.mounts m
    guard (info.phase = .mounted ∧ s.idle m = true ∧
      (s.inodes.all fun o => o.all fun I => I.sb != m || I.opens == 0) = true)
    some ((s.setMount m (some { info with phase := .dying })).addTask ⟨m, true, [.kill], 0⟩)
  | .remount m data admin strdup => do
    let info ← s.mounts m
    guard (info.phase = .mounted)
    some (s.setMount m (some { info with
      mountOpts := (remountOpts cfg admin strdup data info.mountOpts).2 }))
  | .unlink m d => do
    let info ← s.mounts m
    guard (info.phase = .mounted ∧ d ∈ s.dentries ∧ info.root = some d.parent ∧
      info.controlDentry ≠ some d.inode)
    let I ← s.inode d.inode
    guard (I.mode ≠ .dir ∧ I.sb = m)
    some { s with dentries := s.dentries.erase d }
  | .openFile i => do
    let I ← s.inode i
    let info ← s.mounts I.sb
    guard (info.phase = .mounted ∧ s.linked i I = true)
    some (s.setInode i (some { I with opens := I.opens + 1 }))
  | .release i => do
    let I ← s.inode i
    guard (0 < I.opens)
    some (s.setInode i (some { I with opens := I.opens - 1 }))
  | .evict i => do
    let I ← s.inode i
    guard (s.linked i I = false ∧ I.opens = 0)
    s.dropInode i I
  | .run j c => do
    let t ← s.tasks[j]?
    match t.acts with
    | [] => none
    | act :: rest => s.runAct cfg j t rest c act

end Fs

/-- The system. -/
def fsSys (cfg : Config) : Sys Fs FsOp := .ofExec (· = Fs.start) (Fs.exec cfg)

end Redroid.Binderfs
