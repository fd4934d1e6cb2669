import Redroid.Kernel.Vma
import Redroid.Lib.Sys
import Redroid.Binderfs.Devices

/-!
# Loading and unloading the modules

`ashmem_init`, `binder_init` and their exit functions, with what each has registered with the
kernel. Every kernel call that an init function makes may fail: what they return is the
environment of the attempt.

* `ashmemInit`, `ashmemExit`, `binderInit`, `binderExit`: the code, with its labels.
* `modSys`: attempts to load, and unloads of what is loaded, in any order.
* `Consistent`: a loaded module has all its registrations, and one that is not loaded has none.
* `modSys_consistent`: it holds in every run whose attempts meet `LoadOk`, and an attempt that
  does not meet it breaks it.
-/

namespace Redroid.Load

open Binderfs (Name checkNames)

/-- `COMPAT_SHRINKER_DYNAMIC`, under kernel version `v`. -/
def compatShrinkerDynamic (v : Nat) : Bool := decide (kernelVersion 6 7 0 ≤ v)

/-! ## The ashmem module -/

/-- What the ashmem module registers. -/
inductive AshmemRes where
  | areaCache | rangeCache | misc | shrinker | debugfs
  deriving DecidableEq, Repr

/-- How the kernel calls of one `ashmem_init` end: an allocation gives memory, a registration
returns 0 (`none`) or an error. `debugfs`: `debugfs_create_dir` makes the directory. -/
structure AshmemEnv where
  areaCache : Bool
  rangeCache : Bool
  miscRegister : Option Errno
  shrinkerAlloc : Bool
  registerShrinker : Option Errno
  debugfs : Bool
  deriving DecidableEq, Repr

namespace AshmemInit

/-- The label `out_free1`. -/
def outFree1 (reg : List AshmemRes) : List AshmemRes := reg.erase .areaCache

/-- The label `out_free2`. -/
def outFree2 (reg : List AshmemRes) : List AshmemRes := outFree1 (reg.erase .rangeCache)

/-- The label `out_demisc`. -/
def outDemisc (reg : List AshmemRes) : List AshmemRes := outFree2 (reg.erase .misc)

/-- `ashmem_debugfs_init`. -/
def debugfsInit (env : AshmemEnv) (reg : List AshmemRes) : List AshmemRes :=
  if env.debugfs then .debugfs :: reg else reg

end AshmemInit

open AshmemInit in
/-- `ashmem_init`: what it returns (`none` for 0), and the registrations after it. -/
def ashmemInit (v : Nat) (env : AshmemEnv) (reg : List AshmemRes) :
    Option Errno × List AshmemRes :=
  let ret := some .ENOMEM
  if !env.areaCache then (ret, reg)
  else
    let reg := .areaCache :: reg
    if !env.rangeCache then (ret, outFree1 reg)
    else
      let reg := .rangeCache :: reg
      let ret := env.miscRegister
      if ret.isSome then (ret, outFree2 reg)
      else
        let reg := .misc :: reg
        if compatShrinkerDynamic v then
          -- `ret` is what `misc_register` returned
          if !env.shrinkerAlloc then (ret, outDemisc reg)
          else (none, debugfsInit env (.shrinker :: reg))
        else
          let ret := env.registerShrinker
          if ret.isSome then (ret, outDemisc reg)
          else (none, debugfsInit env (.shrinker :: reg))

/-- `ashmem_exit`. -/
def ashmemExit (reg : List AshmemRes) : List AshmemRes :=
  ((((reg.erase .debugfs).erase .shrinker).erase .misc).erase .rangeCache).erase .areaCache

/-! ## The binder module -/

/-- What the binder module registers. -/
inductive BinderRes where
  | listLru | shrinker | debugfs | device (name : Name) | chrdevRegion | fileSystem
  deriving DecidableEq, Repr

/-- `CONFIG_ANDROID_BINDERFS`, and the module parameter `devices`. -/
structure BinderConfig where
  binderfs : Bool
  devices : List UInt8
  deriving DecidableEq, Repr

/-- How the kernel calls of one `binder_init` end; `deviceAlloc n` and `deviceRegister n` are those
for the `n`th device. `debugfs`: the directory `binder` is made, and with it all that goes into it: the
directory `proc` and the five files, whose results the code ignores. -/
structure BinderEnv where
  listLruInit : Option Errno
  shrinkerAlloc : Bool
  registerShrinker : Option Errno
  debugfs : Bool
  kstrdup : Bool
  deviceAlloc : Nat → Bool
  deviceRegister : Nat → Option Errno
  allocChrdevRegion : Option Errno
  registerFilesystem : Option Errno

/-- `binder_alloc_shrinker_init`. -/
def binderAllocShrinkerInit (v : Nat) (env : BinderEnv) (reg : List BinderRes) :
    Option Errno × List BinderRes :=
  let ret := env.listLruInit
  if ret.isSome then (ret, reg)
  else
    let reg := .listLru :: reg
    if compatShrinkerDynamic v then
      if !env.shrinkerAlloc then (some .ENOMEM, reg.erase .listLru)
      else (ret, .shrinker :: reg)
    else
      let ret := env.registerShrinker
      if ret.isSome then (ret, reg.erase .listLru) else (ret, .shrinker :: reg)

/-- `binder_alloc_shrinker_exit`. -/
def binderAllocShrinkerExit (reg : List BinderRes) : List BinderRes :=
  (reg.erase .shrinker).erase .listLru

/-- `init_binder_device` of the `n`th device: it joins the list `binder_devices`. -/
def initBinderDevice (env : BinderEnv) (n : Nat) (name : Name) (binderDevices : List Name)
    (reg : List BinderRes) : Option Errno × List Name × List BinderRes :=
  if !env.deviceAlloc n then (some .ENOMEM, binderDevices, reg)
  else
    let ret := env.deviceRegister n
    if ret.isSome then (ret, binderDevices, reg)
    else (ret, name :: binderDevices, .device name :: reg)

/-- The loop of `binder_init` over the names that `strsep` finds. -/
def initBinderDevices (env : BinderEnv) : Nat → List Name → List Name →
    List BinderRes → Option Errno × List Name × List BinderRes
  | _, [], binderDevices, reg => (none, binderDevices, reg)
  | n, name :: names, binderDevices, reg =>
    match initBinderDevice env n name binderDevices reg with
    | (some e, binderDevices, reg) => (some e, binderDevices, reg)
    | (none, binderDevices, reg) => initBinderDevices env (n + 1) names binderDevices reg

/-- The comma-separated names of the parameter `devices`. -/
def BinderConfig.names (cfg : BinderConfig) : List Name := cfg.devices.splitOn 44

/-- `init_binderfs`; without `CONFIG_ANDROID_BINDERFS` it returns 0. -/
def initBinderfs (cfg : BinderConfig) (env : BinderEnv) (reg : List BinderRes) :
    Option Errno × List BinderRes :=
  if !cfg.binderfs then (none, reg)
  else if checkNames cfg.devices ≠ 0 then (some .E2BIG, reg)
  else
    let ret := env.allocChrdevRegion
    if ret.isSome then (ret, reg)
    else
      let reg := .chrdevRegion :: reg
      let ret := env.registerFilesystem
      if ret.isSome then (ret, reg.erase .chrdevRegion) else (ret, .fileSystem :: reg)

/-- The result is that of the `init_binderfs` of the default devices. -/
theorem initBinderfs_isNone_iff {cfg : BinderConfig} {env : BinderEnv} {reg : List BinderRes}
    {region register : Int} (hfs : cfg.binderfs = true)
    (hregion : region = 0 ↔ env.allocChrdevRegion = none)
    (hregister : register = 0 ↔ env.registerFilesystem = none) :
    (initBinderfs cfg env reg).1 = none ↔ Binderfs.initBinderfs cfg.devices region register = 0 := by
  unfold initBinderfs Binderfs.initBinderfs
  simp only [hfs, Bool.not_true, Bool.false_eq_true, if_false, ne_eq, ite_not]
  by_cases hnames : checkNames cfg.devices = 0
  · rw [if_pos hnames, if_pos hnames]
    cases hr : env.allocChrdevRegion with
    | some e => simp [hregion, hr]
    | none =>
      rw [if_pos (hregion.mpr hr)]
      cases hf : env.registerFilesystem with
      | some e => simp [hregister, hf]
      | none => simp [hregister.mpr hf]
  · simp [hnames]

/-- `binderfs_exit`; without `CONFIG_ANDROID_BINDERFS` it does nothing. -/
def binderfsExit (cfg : BinderConfig) (reg : List BinderRes) : List BinderRes :=
  if !cfg.binderfs then reg else (reg.erase .fileSystem).erase .chrdevRegion

/-- The loop that deregisters all devices of the list `binder_devices`. -/
def deregisterDevices (binderDevices : List Name) (reg : List BinderRes) : List BinderRes :=
  binderDevices.foldl (fun reg name => reg.erase (.device name)) reg

namespace BinderInit

/-- The label `err_alloc_device_names_failed`. -/
def errAllocDeviceNamesFailed (reg : List BinderRes) : List BinderRes := reg.erase .debugfs

/-- The label `err_init_binder_device_failed`. -/
def errInitBinderDeviceFailed (binderDevices : List Name) (reg : List BinderRes) :
    List BinderRes :=
  errAllocDeviceNamesFailed (deregisterDevices binderDevices reg)

/-- `binder_init` from `init_binderfs` on. -/
def fs (cfg : BinderConfig) (env : BinderEnv) (binderDevices : List Name)
    (reg : List BinderRes) : Option Errno × List Name × List BinderRes :=
  match initBinderfs cfg env reg with
  | (some e, reg) => (some e, [], errInitBinderDeviceFailed binderDevices reg)
  | (none, reg) => (none, binderDevices, reg)

end BinderInit

open BinderInit in
/-- `binder_init`: what it returns, the list `binder_devices`, and the registrations after it. -/
def binderInit (v : Nat) (cfg : BinderConfig) (env : BinderEnv) (reg : List BinderRes) :
    Option Errno × List Name × List BinderRes :=
  match binderAllocShrinkerInit v env reg with
  | (some e, reg) => (some e, [], reg)
  | (none, reg) =>
    let reg := if env.debugfs then .debugfs :: reg else reg
    if !cfg.binderfs && cfg.devices != [] then
      if !env.kstrdup then (some .ENOMEM, [], errAllocDeviceNamesFailed reg)
      else
        match initBinderDevices env 0 cfg.names [] reg with
        | (some e, binderDevices, reg) => (some e, [], errInitBinderDeviceFailed binderDevices reg)
        | (none, binderDevices, reg) => fs cfg env binderDevices reg
    else fs cfg env [] reg

/-- `binder_exit`. -/
def binderExit (cfg : BinderConfig) (binderDevices : List Name) (reg : List BinderRes) :
    List BinderRes :=
  binderAllocShrinkerExit ((deregisterDevices binderDevices (binderfsExit cfg reg)).erase .debugfs)

/-! ## Runs -/

/-- The registrations of the two modules, and whether each is loaded; the binder module with its
list `binder_devices`. -/
structure Mods where
  ashmem : List AshmemRes
  ashmemLoaded : Bool
  binder : List BinderRes
  binderLoaded : Option (List Name)

inductive ModAct where
  | loadAshmem (env : AshmemEnv)
  | unloadAshmem
  | loadBinder (env : BinderEnv)
  | unloadBinder

/-- One attempt to load a module, or an unload. An attempt loads the module if its init function
returns 0. -/
def Mods.exec (v : Nat) (cfg : BinderConfig) (s : Mods) : ModAct → Option Mods
  | .loadAshmem env =>
    if s.ashmemLoaded then none
    else
      let (ret, reg) := ashmemInit v env s.ashmem
      some { s with ashmem := reg, ashmemLoaded := ret.isNone }
  | .unloadAshmem =>
    if s.ashmemLoaded then some { s with ashmem := ashmemExit s.ashmem, ashmemLoaded := false }
    else none
  | .loadBinder env =>
    if s.binderLoaded.isSome then none
    else
      let (ret, binderDevices, reg) := binderInit v cfg env s.binder
      some { s with binder := reg, binderLoaded := if ret.isNone then some binderDevices else none }
  | .unloadBinder =>
    match s.binderLoaded with
    | some binderDevices =>
      some { s with binder := binderExit cfg binderDevices s.binder, binderLoaded := none }
    | none => none

/-- Loads and unloads in any order, from nothing loaded. -/
def modSys (v : Nat) (cfg : BinderConfig) : Sys Mods ModAct :=
  Sys.ofExec (fun s => s = ⟨[], false, [], none⟩) (Mods.exec v cfg)

/-- What `ashmem_init` has registered when it returns 0. -/
def ashmemAll : List AshmemRes := [.areaCache, .rangeCache, .misc, .shrinker]

/-- What `binder_init` has registered when it returns 0. -/
def binderAll (cfg : BinderConfig) : List BinderRes :=
  [.listLru, .shrinker, .debugfs] ++
    if cfg.binderfs then [.chrdevRegion, .fileSystem]
    else if cfg.devices = [] then [] else cfg.names.map .device

/-- A loaded module has all its registrations, one that is not loaded has none. -/
def Consistent (cfg : BinderConfig) (s : Mods) : Prop :=
  (if s.ashmemLoaded then ∀ r ∈ ashmemAll, r ∈ s.ashmem else s.ashmem = []) ∧
  (if s.binderLoaded.isSome then ∀ r ∈ binderAll cfg, r ∈ s.binder else s.binder = [])

/-! ## The condition on an attempt -/

/-- `shrinker_alloc` does not fail after `misc_register` has succeeded. -/
def AshmemOk (v : Nat) (env : AshmemEnv) : Prop :=
  compatShrinkerDynamic v = true → env.areaCache = true → env.rangeCache = true →
    env.miscRegister = none → env.shrinkerAlloc = true

/-- A kernel call of `binder_alloc_shrinker_init` fails. -/
def ShrinkerFails (v : Nat) (env : BinderEnv) : Prop :=
  env.listLruInit ≠ none ∨
    if compatShrinkerDynamic v then env.shrinkerAlloc = false else env.registerShrinker ≠ none

/-- The calls for the devices succeed. -/
def DevicesOk (cfg : BinderConfig) (env : BinderEnv) : Prop :=
  cfg.binderfs = false → cfg.devices ≠ [] → env.kstrdup = true ∧
    ∀ n < cfg.names.length, env.deviceAlloc n = true ∧ env.deviceRegister n = none

/-- The names fit, and the calls of `init_binderfs` succeed. -/
def BinderfsOk (cfg : BinderConfig) (env : BinderEnv) : Prop :=
  cfg.binderfs = true → checkNames cfg.devices = 0 ∧ env.allocChrdevRegion = none ∧
    env.registerFilesystem = none

/-- `binder_init` fails in `binder_alloc_shrinker_init`, or in no kernel call. -/
def BinderOk (v : Nat) (cfg : BinderConfig) (env : BinderEnv) : Prop :=
  ShrinkerFails v env ∨ env.debugfs = true ∧ DevicesOk cfg env ∧ BinderfsOk cfg env

/-- The condition on the attempts of a run. -/
def LoadOk (v : Nat) (cfg : BinderConfig) (_ : Mods) : ModAct → Prop
  | .loadAshmem env => AshmemOk v env
  | .loadBinder env => BinderOk v cfg env
  | _ => True

/-! ## What the init functions do -/

/-- The registrations of a loaded ashmem module, with its debugfs directory or without. -/
def ashmemRegs (debugfs : Bool) : List AshmemRes :=
  (if debugfs then [.debugfs] else []) ++ [.shrinker, .misc, .rangeCache, .areaCache]

theorem debugfsInit_eq (env : AshmemEnv) :
    AshmemInit.debugfsInit env [.shrinker, .misc, .rangeCache, .areaCache] =
      ashmemRegs env.debugfs := by
  unfold AshmemInit.debugfsInit ashmemRegs
  cases env.debugfs <;> rfl

/-- `ashmem_init` registers all and returns 0, or nothing; it returns 0 with nothing registered
exactly if `shrinker_alloc` fails. -/
theorem ashmemInit_cases (v : Nat) (env : AshmemEnv) :
    (ashmemInit v env [] = (none, ashmemRegs env.debugfs) ∧ AshmemOk v env) ∨
    (∃ e, ashmemInit v env [] = (some e, []) ∧ AshmemOk v env) ∨
    (ashmemInit v env [] = (none, []) ∧ ¬ AshmemOk v env) := by
  unfold ashmemInit AshmemOk
  cases ha : env.areaCache with
  | false => exact .inr (.inl ⟨.ENOMEM, rfl, by simp⟩)
  | true =>
    cases hr : env.rangeCache with
    | false => exact .inr (.inl ⟨.ENOMEM, rfl, by simp⟩)
    | true =>
      cases hm : env.miscRegister with
      | some e => exact .inr (.inl ⟨e, rfl, by simp⟩)
      | none =>
        cases hv : compatShrinkerDynamic v with
        | true =>
          cases hs : env.shrinkerAlloc with
          | false => exact .inr (.inr ⟨rfl, by simp⟩)
          | true => exact .inl ⟨congrArg (Prod.mk none) (debugfsInit_eq env), by simp⟩
        | false =>
          cases hs : env.registerShrinker with
          | some e => exact .inr (.inl ⟨e, rfl, by simp⟩)
          | none => exact .inl ⟨congrArg (Prod.mk none) (debugfsInit_eq env), by simp⟩

theorem ashmemExit_regs (debugfs : Bool) : ashmemExit (ashmemRegs debugfs) = [] := by
  cases debugfs <;> rfl

/-- The registrations of the binder module after the devices `binderDevices`. -/
def deviceRegs (debugfs : Bool) (binderDevices : List Name) : List BinderRes :=
  binderDevices.map .device ++ ((if debugfs then [.debugfs] else []) ++ [.shrinker, .listLru])

/-- The registrations of a loaded binder module. -/
def binderRegs (cfg : BinderConfig) (debugfs : Bool) (binderDevices : List Name) :
    List BinderRes :=
  (if cfg.binderfs then [.fileSystem, .chrdevRegion] else []) ++ deviceRegs debugfs binderDevices

theorem binderAllocShrinkerInit_cases (v : Nat) (env : BinderEnv) :
    (∃ e, binderAllocShrinkerInit v env [] = (some e, []) ∧ ShrinkerFails v env) ∨
    (binderAllocShrinkerInit v env [] = (none, [.shrinker, .listLru]) ∧ ¬ ShrinkerFails v env) := by
  unfold binderAllocShrinkerInit ShrinkerFails
  cases hl : env.listLruInit with
  | some e => exact .inl ⟨e, rfl, .inl nofun⟩
  | none =>
    cases hv : compatShrinkerDynamic v with
    | true =>
      cases hs : env.shrinkerAlloc with
      | false => exact .inl ⟨.ENOMEM, rfl, by simp⟩
      | true => exact .inr ⟨rfl, by simp⟩
    | false =>
      cases hs : env.registerShrinker with
      | some e => exact .inl ⟨e, rfl, by simp⟩
      | none => exact .inr ⟨rfl, by simp⟩

/-- The loop registers the devices of its list `binder_devices`; it returns 0 if no call fails. -/
theorem initBinderDevices_cases (env : BinderEnv) (debugfs : Bool) (names devs : List Name)
    (n : Nat) :
    (initBinderDevices env n names devs (deviceRegs debugfs devs) =
        (none, names.reverse ++ devs, deviceRegs debugfs (names.reverse ++ devs)) ∧
      ∀ m < names.length, env.deviceAlloc (n + m) = true ∧ env.deviceRegister (n + m) = none) ∨
    (∃ e devs', initBinderDevices env n names devs (deviceRegs debugfs devs) =
        (some e, devs', deviceRegs debugfs devs') ∧
      ¬ ∀ m < names.length, env.deviceAlloc (n + m) = true ∧ env.deviceRegister (n + m) = none) := by
  induction names generalizing devs n with
  | nil => exact .inl ⟨rfl, by simp⟩
  | cons name names ih =>
    simp only [initBinderDevices, initBinderDevice]
    cases ha : env.deviceAlloc n with
    | false =>
      refine .inr ⟨.ENOMEM, devs, rfl, fun hall => ?_⟩
      simpa [ha] using (hall 0 (by simp)).1
    | true =>
      cases hr : env.deviceRegister n with
      | some e =>
        refine .inr ⟨e, devs, rfl, fun hall => ?_⟩
        simpa [hr] using (hall 0 (by simp)).2
      | none =>
        -- the other calls are those of the rest of the names
        have hshift : (∀ m < (name :: names).length,
            env.deviceAlloc (n + m) = true ∧ env.deviceRegister (n + m) = none) ↔
            ∀ m < names.length,
              env.deviceAlloc (n + 1 + m) = true ∧ env.deviceRegister (n + 1 + m) = none := by
          constructor
          · intro hall m hm
            have := hall (m + 1) (by simpa using hm)
            rwa [show n + (m + 1) = n + 1 + m by omega] at this
          · intro hall m hm
            cases m with
            | zero => exact ⟨ha, hr⟩
            | succ m =>
              have := hall m (by simpa using hm)
              rwa [show n + (m + 1) = n + 1 + m by omega]
        rw [hshift, List.reverse_cons, List.append_assoc]
        exact ih (name :: devs) (n + 1)

/-- The devices of the list `binder_devices` are deregistered. -/
theorem deregisterDevices_map (devs : List Name) (tail : List BinderRes) :
    deregisterDevices devs (devs.map .device ++ tail) = tail := by
  induction devs with
  | nil => rfl
  | cons name devs ih =>
    unfold deregisterDevices at ih ⊢
    simpa using ih

theorem errInitBinderDeviceFailed_regs (debugfs : Bool) (devs : List Name) :
    BinderInit.errInitBinderDeviceFailed devs (deviceRegs debugfs devs) =
      [.shrinker, .listLru] := by
  unfold BinderInit.errInitBinderDeviceFailed deviceRegs
  rw [deregisterDevices_map]
  cases debugfs <;> rfl

/-- `init_binderfs`, with the devices registered. -/
theorem fs_cases (cfg : BinderConfig) (env : BinderEnv) (debugfs : Bool) (devs : List Name) :
    (BinderInit.fs cfg env devs (deviceRegs debugfs devs) =
      (none, devs, binderRegs cfg debugfs devs) ∧ BinderfsOk cfg env) ∨
    (∃ e, BinderInit.fs cfg env devs (deviceRegs debugfs devs) = (some e, [], [.shrinker, .listLru]) ∧
      ¬ BinderfsOk cfg env) := by
  unfold BinderInit.fs initBinderfs BinderfsOk binderRegs
  cases hb : cfg.binderfs with
  | false => exact .inl ⟨rfl, by simp⟩
  | true =>
    by_cases hn : checkNames cfg.devices = 0
    · cases hc : env.allocChrdevRegion with
      | some e =>
        refine .inr ⟨e, ?_, by simp⟩
        simp [hn, errInitBinderDeviceFailed_regs]
      | none =>
        cases hf : env.registerFilesystem with
        | some e =>
          refine .inr ⟨e, ?_, by simp⟩
          simp [hn, errInitBinderDeviceFailed_regs]
        | none => exact .inl ⟨by simp [hn], by simp [hn]⟩
    · refine .inr ⟨.E2BIG, ?_, by simp [hn]⟩
      simp [hn, errInitBinderDeviceFailed_regs]

/-- The list `binder_devices` when `binder_init` returns 0. -/
def binderDevices (cfg : BinderConfig) : List Name :=
  if cfg.binderfs = false ∧ cfg.devices ≠ [] then cfg.names.reverse else []

/-- `binder_init` fails at once; or registers all and returns 0; or fails later, and then leaves the
shrinker and its list behind. -/
theorem binderInit_cases (v : Nat) (cfg : BinderConfig) (env : BinderEnv) :
    (∃ e, binderInit v cfg env [] = (some e, [], []) ∧ ShrinkerFails v env) ∨
    (binderInit v cfg env [] = (none, binderDevices cfg, binderRegs cfg env.debugfs (binderDevices cfg)) ∧
      ¬ ShrinkerFails v env ∧ DevicesOk cfg env ∧ BinderfsOk cfg env) ∨
    (∃ e, binderInit v cfg env [] = (some e, [], [.shrinker, .listLru]) ∧
      ¬ ShrinkerFails v env ∧ ¬ (DevicesOk cfg env ∧ BinderfsOk cfg env)) := by
  unfold binderInit
  rcases binderAllocShrinkerInit_cases v env with ⟨e, heq, hf⟩ | ⟨heq, hf⟩
  · rw [heq]
    exact .inl ⟨e, rfl, hf⟩
  rw [heq]
  refine .inr ?_
  have hreg : (if env.debugfs then BinderRes.debugfs :: [.shrinker, .listLru]
      else [.shrinker, .listLru]) = deviceRegs env.debugfs [] := by
    unfold deviceRegs
    cases env.debugfs <;> rfl
  simp only [hreg]
  by_cases hdev : cfg.binderfs = false ∧ cfg.devices ≠ []
  · obtain ⟨hb, hd⟩ := hdev
    have hdevices : binderDevices cfg = cfg.names.reverse := by
      rw [binderDevices, if_pos ⟨hb, hd⟩]
    rw [if_pos (by simp [hb, hd]), hdevices]
    cases hk : env.kstrdup with
    | false =>
      refine .inr ⟨.ENOMEM, ?_, hf, fun h => ?_⟩
      · have := errInitBinderDeviceFailed_regs env.debugfs []
        simpa [BinderInit.errInitBinderDeviceFailed, deregisterDevices] using this
      · simpa [hk] using (h.1 hb hd).1
    | true =>
      rw [if_neg (by simp)]
      rcases initBinderDevices_cases env env.debugfs cfg.names [] 0 with ⟨heq, hall⟩ | ⟨e, devs, heq, hall⟩
      · simp only [heq, List.append_nil]
        simp only [Nat.zero_add] at hall
        have hok : DevicesOk cfg env := fun _ _ => ⟨hk, hall⟩
        rcases fs_cases cfg env env.debugfs cfg.names.reverse with ⟨heq, hfs⟩ | ⟨e, heq, hfs⟩
        · exact .inl ⟨heq, hf, hok, hfs⟩
        · exact .inr ⟨e, heq, hf, fun h => hfs h.2⟩
      · simp only [heq, errInitBinderDeviceFailed_regs]
        simp only [Nat.zero_add] at hall
        exact .inr ⟨e, rfl, hf, fun h => hall (h.1 hb hd).2⟩
  · have hdevices : binderDevices cfg = [] := by
      rw [binderDevices, if_neg hdev]
    rw [if_neg (by simpa using hdev), hdevices]
    have hok : DevicesOk cfg env := fun hb hd => absurd ⟨hb, hd⟩ hdev
    rcases fs_cases cfg env env.debugfs [] with ⟨heq, hfs⟩ | ⟨e, heq, hfs⟩
    · exact .inl ⟨heq, hf, hok, hfs⟩
    · exact .inr ⟨e, heq, hf, fun h => hfs h.2⟩

theorem binderExit_regs (cfg : BinderConfig) (debugfs : Bool) (devs : List Name) :
    binderExit cfg devs (binderRegs cfg debugfs devs) = [] := by
  have hfs : binderfsExit cfg (binderRegs cfg debugfs devs) = deviceRegs debugfs devs := by
    unfold binderfsExit binderRegs
    cases cfg.binderfs <;> simp
  unfold binderExit
  rw [hfs, deviceRegs, deregisterDevices_map]
  cases debugfs <;> rfl

/-! ## The result -/

/-- The registrations of each module are those of `ashmemRegs` and `binderRegs`, or none. -/
structure Inv (cfg : BinderConfig) (s : Mods) : Prop where
  ashmem : if s.ashmemLoaded then ∃ debugfs, s.ashmem = ashmemRegs debugfs else s.ashmem = []
  binder : match s.binderLoaded with
    | some devs => devs = binderDevices cfg ∧ s.binder = binderRegs cfg true devs
    | none => s.binder = []

section Run

variable {v : Nat} {cfg : BinderConfig} {s s' : Mods} {x : ModAct}

theorem ashmemAll_subset (debugfs : Bool) : ∀ r ∈ ashmemAll, r ∈ ashmemRegs debugfs := by
  cases debugfs <;> decide

theorem binderAll_subset : ∀ r ∈ binderAll cfg, r ∈ binderRegs cfg true (binderDevices cfg) := by
  intro r hr
  unfold binderAll at hr
  unfold binderRegs deviceRegs binderDevices
  cases hb : cfg.binderfs with
  | true =>
    rw [hb] at hr
    simp only [if_true, List.mem_append, List.mem_cons, List.not_mem_nil, or_false] at hr ⊢
    tauto
  | false =>
    rw [hb] at hr
    by_cases hd : cfg.devices = []
    · simp only [hd, Bool.false_eq_true, if_false, if_true, List.mem_append, List.mem_cons,
        List.not_mem_nil, or_false] at hr ⊢
      tauto
    · simp only [hd, Bool.false_eq_true, if_false, if_true, List.mem_append, List.mem_cons,
        List.not_mem_nil, or_false, ne_eq, not_false_eq_true, and_self, List.mem_map,
        List.mem_reverse] at hr ⊢
      rcases hr with (rfl | rfl | rfl) | hr
      · simp
      · simp
      · simp
      · exact .inr (.inl hr)

theorem debugfs_notMem (devs : List Name) : BinderRes.debugfs ∉ binderRegs cfg false devs := by
  unfold binderRegs deviceRegs
  cases cfg.binderfs <;> simp

theorem Inv.consistent (h : Inv cfg s) : Consistent cfg s := by
  constructor
  · have ha := h.ashmem
    split at ha
    · rename_i hl
      obtain ⟨debugfs, ha⟩ := ha
      rw [if_pos hl, ha]
      exact ashmemAll_subset debugfs
    · rename_i hl
      rwa [if_neg hl]
  · have hb := h.binder
    split at hb
    · rename_i devs hl
      obtain ⟨rfl, hb⟩ := hb
      rw [hl, hb]
      exact binderAll_subset
    · rename_i hl
      rw [hl]
      exact hb

/-- One step: if the attempt is as `LoadOk` says, it keeps the invariant, else the state after it is
not consistent. -/
theorem Inv.step (h : Inv cfg s) (hst : s.exec v cfg x = some s') :
    (LoadOk v cfg s x ∧ Inv cfg s') ∨ (¬ LoadOk v cfg s x ∧ ¬ Consistent cfg s') := by
  have ha := h.ashmem
  have hb := h.binder
  cases x with
  | loadAshmem env =>
    simp only [Mods.exec] at hst
    split at hst
    · cases hst
    rename_i hl
    rw [if_neg hl] at ha
    rw [ha] at hst
    rcases ashmemInit_cases v env with ⟨heq, hok⟩ | ⟨e, heq, hok⟩ | ⟨heq, hok⟩
    · rw [heq] at hst
      cases hst
      exact .inl ⟨hok, ⟨env.debugfs, rfl⟩, hb⟩
    · rw [heq] at hst
      cases hst
      exact .inl ⟨hok, rfl, hb⟩
    · rw [heq] at hst
      cases hst
      refine .inr ⟨hok, fun hc => ?_⟩
      have := hc.1 .misc (by decide)
      cases this
  | unloadAshmem =>
    simp only [Mods.exec] at hst
    split at hst
    · rename_i hl
      rw [if_pos hl] at ha
      obtain ⟨debugfs, ha⟩ := ha
      cases hst
      refine .inl ⟨trivial, ?_, hb⟩
      show ashmemExit s.ashmem = []
      rw [ha, ashmemExit_regs]
    · cases hst
  | loadBinder env =>
    simp only [Mods.exec] at hst
    split at hst
    · cases hst
    rename_i hl
    rw [Option.not_isSome_iff_eq_none.mp hl] at hb
    rw [hb] at hst
    rcases binderInit_cases v cfg env with ⟨e, heq, hf⟩ | ⟨heq, hf, hok⟩ | ⟨e, heq, hf, hnot⟩
    · rw [heq] at hst
      cases hst
      exact .inl ⟨.inl hf, ha, rfl⟩
    · rw [heq] at hst
      cases hd : env.debugfs with
      | true =>
        rw [hd] at hst
        cases hst
        exact .inl ⟨.inr ⟨hd, hok⟩, ha, rfl, rfl⟩
      | false =>
        rw [hd] at hst
        cases hst
        refine .inr ⟨fun h => ?_, fun hc => ?_⟩
        · rcases h with h | ⟨h, -⟩
          · exact hf h
          · rw [hd] at h
            cases h
        · exact debugfs_notMem _ (hc.2 .debugfs (by simp [binderAll]))
    · rw [heq] at hst
      cases hst
      refine .inr ⟨fun h => ?_, fun hc => ?_⟩
      · rcases h with h | ⟨-, h⟩
        · exact hf h
        · exact hnot h
      · cases hc.2
  | unloadBinder =>
    simp only [Mods.exec] at hst
    split at hst
    · rename_i devs hl
      rw [hl] at hb
      cases hst
      refine .inl ⟨trivial, ha, ?_⟩
      show binderExit cfg devs s.binder = []
      rw [hb.2, binderExit_regs]
    · cases hst

theorem modSys_inv (h : (modSys v cfg).ReachIf (LoadOk v cfg) s) : Inv cfg s := by
  refine h.inv ?_ ?_
  · rintro s rfl
    exact ⟨rfl, rfl⟩
  · intro s x s' hi hok hst
    rcases hi.step hst with ⟨-, h⟩ | ⟨hn, -⟩
    · exact h
    · exact absurd hok hn

/-- **Loads and unloads keep the registrations consistent** in every run in which no attempt fails
where the code misses it, and the next step keeps them consistent exactly if it is such an attempt. -/
theorem modSys_consistent (h : (modSys v cfg).ReachIf (LoadOk v cfg) s) :
    Consistent cfg s ∧
      ∀ x s', (modSys v cfg).step s x s' → (Consistent cfg s' ↔ LoadOk v cfg s x) := by
  have hinv := modSys_inv h
  refine ⟨hinv.consistent, fun x s' hst => ?_⟩
  rcases hinv.step hst with ⟨hok, h'⟩ | ⟨hok, hc⟩
  · exact ⟨fun _ => hok, fun _ => h'.consistent⟩
  · exact ⟨fun h => absurd h hc, fun h => absurd h hok⟩

end Run

/-- The configuration of the out-of-tree build. -/
def defaultConfig : BinderConfig := ⟨true, Binderfs.defaultDevices⟩

theorem checkNames_default : checkNames defaultConfig.devices = 0 := by
  rw [Binderfs.checkNames_eq, if_neg (by decide +kernel)]

/-- No kernel call of `binder_init` fails, but `register_filesystem` may. -/
def fsEnv (registerFilesystem : Option Errno) : BinderEnv where
  listLruInit := none
  shrinkerAlloc := true
  registerShrinker := none
  debugfs := true
  kstrdup := true
  deviceAlloc _ := true
  deviceRegister _ := none
  allocChrdevRegion := none
  registerFilesystem := registerFilesystem

theorem binderInit_default (ret : Option Errno) :
    binderInit (kernelVersion 6 8 0) defaultConfig (fsEnv ret) [] =
      if ret.isSome then (ret, [], [.shrinker, .listLru])
      else (none, [], [.fileSystem, .chrdevRegion, .debugfs, .shrinker, .listLru]) := by
  have hnew : compatShrinkerDynamic (kernelVersion 6 8 0) = true := by decide
  have hfs : defaultConfig.binderfs = true := rfl
  cases ret <;>
    simp [binderInit, binderAllocShrinkerInit, BinderInit.fs, initBinderfs, checkNames_default, hnew, fsEnv,
      hfs, BinderInit.errInitBinderDeviceFailed, BinderInit.errAllocDeviceNamesFailed,
      deregisterDevices]

/-- No kernel call of `ashmem_init` fails, but `shrinker_alloc` may. -/
def shrinkerEnv (shrinkerAlloc : Bool) : AshmemEnv := ⟨true, true, none, shrinkerAlloc, none, true⟩

/-- Both modules, loaded under 6.8. -/
theorem modSys_consistent_loaded :
    ∃ s, (modSys (kernelVersion 6 8 0) defaultConfig).ReachIf
        (LoadOk (kernelVersion 6 8 0) defaultConfig) s ∧
      s.ashmemLoaded = true ∧ s.binderLoaded = some [] ∧ Consistent defaultConfig s := by
  have h0 : (modSys (kernelVersion 6 8 0) defaultConfig).ReachIf
      (LoadOk (kernelVersion 6 8 0) defaultConfig) ⟨[], false, [], none⟩ := .init rfl
  have h1 := h0.step (a := ModAct.loadAshmem (shrinkerEnv true)) (fun _ _ _ _ => rfl) rfl
  have hbinder := binderInit_default none
  have h2 : (modSys (kernelVersion 6 8 0) defaultConfig).ReachIf
      (LoadOk (kernelVersion 6 8 0) defaultConfig) ⟨[.debugfs, .shrinker, .misc, .rangeCache, .areaCache], true,
        [.fileSystem, .chrdevRegion, .debugfs, .shrinker, .listLru], some []⟩ :=
    h1.step (a := ModAct.loadBinder (fsEnv none))
      (.inr ⟨rfl, fun h => (by cases h), fun _ => ⟨checkNames_default, rfl, rfl⟩⟩) (by
        show Mods.exec _ _ _ _ = _
        simp only [Mods.exec, hbinder]
        rfl)
  exact ⟨_, h2, rfl, rfl, (modSys_consistent h2).1⟩

/-- `ashmem_init` returns 0 with nothing registered if `shrinker_alloc` fails, and a `binder_init`
that fails in `register_filesystem` leaves its shrinker registered. -/
theorem load_inconsistent :
    ¬ (∀ s, (modSys (kernelVersion 6 8 0) defaultConfig).Reach s → Consistent defaultConfig s) ∧
    ashmemInit (kernelVersion 6 8 0) (shrinkerEnv false) [] = (none, []) ∧
    binderInit (kernelVersion 6 8 0) defaultConfig (fsEnv (some .EBUSY)) [] =
      (some .EBUSY, [], [.shrinker, .listLru]) := by
  have hbinder : binderInit (kernelVersion 6 8 0) defaultConfig (fsEnv (some .EBUSY)) [] =
      (some .EBUSY, [], [.shrinker, .listLru]) := binderInit_default _
  refine ⟨fun hall => ?_, by decide, hbinder⟩
  have h0 : (modSys (kernelVersion 6 8 0) defaultConfig).Reach ⟨[], false, [], none⟩ := .init rfl
  have h1 : (modSys (kernelVersion 6 8 0) defaultConfig).Reach
      ⟨[], false, [.shrinker, .listLru], none⟩ :=
    h0.next (a := ModAct.loadBinder (fsEnv (some .EBUSY))) (by
      show Mods.exec _ _ _ _ = _
      simp only [Mods.exec, hbinder]
      rfl)
  cases (hall _ h1).2

end Redroid.Load
