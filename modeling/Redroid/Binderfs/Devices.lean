import Mathlib.Data.Finset.Card
import Mathlib.Data.Finset.Range
import Mathlib.Data.List.TakeWhile
import Redroid.Binderfs.Fs

/-!
# The default devices

Three loops read `binder_devices_param`: the check in `init_binderfs`, the loop of
`binderfs_fill_super`, and that of `binder_init` without binderfs. The first two stop at the first empty
token, and the third one registers it.

* `names`: the tokens that are not empty; `readNames`: those before the first empty one.
* `checkNames`, `initBinderfs`, `binderInitDevices`: the check and the loop of `binder_init`.
* `Fills`: the loop of `binderfs_fill_super`, when nothing fails.
* `devices_agree_iff`: the three loops agree if and only if no token is empty.
-/

namespace Redroid.Binderfs

open Fs

def e2big : Int := 7

/-- The tokens of the parameter that are not empty. -/
def names (param : List UInt8) : List Name := (param.splitOn 44).filter (· ≠ [])

/-- The tokens before the first empty one. -/
def readNames (param : List UInt8) : List Name := (param.splitOn 44).takeWhile (· ≠ [])

/-- The loop over the names in `init_binderfs`. -/
def checkNames (name : List UInt8) : Int :=
  let len := (name.takeWhile (· ≠ 44)).length
  if len = 0 then 0
  else if binderfsMaxName < len then -e2big
  else checkNames ((name.drop len).drop 1)
termination_by name.length
decreasing_by
  have := (name.takeWhile_prefix (· ≠ 44)).length_le
  simp only [List.length_drop]
  omega

/-- `init_binderfs`. `region` and `register` are what `alloc_chrdev_region` and `register_filesystem`
return. -/
def initBinderfs (param : List UInt8) (region register : Int) : Int :=
  if checkNames param ≠ 0 then checkNames param
  else if region ≠ 0 then region
  else register

/-- The `strsep` loop of `binder_init`: the devices, and the result. `initBinderDevice` is what
`init_binder_device` returns. -/
def registerLoop (initBinderDevice : Name → Int) : List Name → List Name → List Name × Int
  | devices, [] => (devices, 0)
  | devices, name :: rest =>
    if initBinderDevice name ≠ 0 then ([], initBinderDevice name)
    else registerLoop initBinderDevice (devices ++ [name]) rest

/-- The devices of `binder_init` without binderfs. -/
def binderInitDevices (initBinderDevice : Name → Int) (param : List UInt8) : List Name × Int :=
  if param = [] then ([], 0) else registerLoop initBinderDevice [] (param.splitOn 44)

variable {param : List UInt8} {cfg : Config} {s s' s₁ : Fs} {j k : Nat} {t : Task} {info : Info}
  {root : InodeId} {name : Name}

/-! ## Tokens -/

/-- What the loops go on with after the first token. -/
def after (param : List UInt8) : List UInt8 := (param.drop (param.takeWhile (· ≠ 44)).length).drop 1

/-- The first token, and the others. -/
theorem splitOn_first (param : List UInt8) :
    param.splitOn 44 = [param.takeWhile (· ≠ 44)] ∧ after param = [] ∨
      param.splitOn 44 = param.takeWhile (· ≠ 44) :: (after param).splitOn 44 := by
  have hno : (44 : UInt8) ∉ param.takeWhile (· ≠ 44) := fun h => by
    simpa using List.mem_takeWhile_imp h
  have happ := List.takeWhile_append_dropWhile (p := fun c : UInt8 => decide (c ≠ 44)) (l := param)
  have hhead (c : UInt8) (cs : List UInt8) (h : param.dropWhile (· ≠ 44) = c :: cs) : c = 44 := by
    have := List.head?_dropWhile_not (fun c : UInt8 => decide (c ≠ 44)) param
    rw [h] at this
    simpa using this
  rw [after]
  generalize param.takeWhile (· ≠ 44) = first at hno happ
  generalize param.dropWhile (· ≠ 44) = more at happ hhead
  subst happ
  rw [List.drop_left]
  cases more with
  | nil => exact .inl ⟨by rw [List.append_nil, List.splitOn_eq_singleton hno], rfl⟩
  | cons c cs =>
    obtain rfl := hhead c cs rfl
    exact .inr (List.splitOn_append_cons_self_of_not_mem hno cs)

/-- A loop that stops at the first empty token. -/
theorem readNames_eq (param : List UInt8) : readNames param =
    if param.takeWhile (· ≠ 44) = [] then []
    else param.takeWhile (· ≠ 44) :: readNames (after param) := by
  have hcons (w : Name) (ws : List Name) : (w :: ws).takeWhile (· ≠ []) =
      if w = [] then [] else w :: ws.takeWhile (· ≠ []) := by
    rw [List.takeWhile_cons]
    by_cases hw : w = [] <;> simp [hw]
  rw [readNames]
  rcases splitOn_first param with ⟨hsplit, hafter⟩ | hsplit
  · rw [hsplit, hcons, hafter]
    rfl
  · rw [hsplit, hcons]
    rfl

theorem after_length (h : param.takeWhile (· ≠ 44) ≠ []) : (after param).length < param.length := by
  have hpos := List.length_pos_iff.mpr h
  have hle := (param.takeWhile_prefix (· ≠ 44)).length_le
  rw [after, List.length_drop, List.length_drop]
  omega

/-- `init_binderfs` reads the tokens before the first empty one. -/
theorem checkNames_eq (param : List UInt8) : checkNames param =
    if ∃ w ∈ readNames param, binderfsMaxName < w.length then -e2big else 0 := by
  induction hlen : param.length using Nat.strong_induction_on generalizing param with
  | _ n ih =>
  rw [checkNames, readNames_eq, ← after]
  by_cases hw : param.takeWhile (· ≠ 44) = []
  · rw [if_pos hw, if_pos (List.length_eq_zero_iff.mpr hw), if_neg nofun]
  · have hlong := ih _ (hlen ▸ after_length hw) (after param) rfl
    rw [if_neg hw, if_neg (mt List.length_eq_zero_iff.mp hw), hlong]
    by_cases hmax : binderfsMaxName < (param.takeWhile (· ≠ 44)).length
    · rw [if_pos hmax, if_pos ⟨_, List.mem_cons_self, hmax⟩]
    · rw [if_neg hmax]
      refine if_congr ?_ rfl rfl
      simp only [List.mem_cons, exists_eq_or_imp, hmax, false_or]

theorem readNames_prefix (param : List UInt8) : readNames param <+: names param := by
  rw [readNames, names]
  induction param.splitOn 44 with
  | nil => exact List.nil_prefix
  | cons w ws ih =>
    by_cases hw : w = []
    · simp [hw]
    · simpa [hw] using ih

theorem readNames_full (h : param = [] ∨ [] ∉ param.splitOn 44) : readNames param = names param := by
  rcases h with rfl | h
  · rfl
  · have hall : ∀ w ∈ param.splitOn 44, decide (w ≠ []) = true := fun w hw =>
      decide_eq_true fun he => h (he ▸ hw)
    rw [readNames, names, List.takeWhile_eq_self_iff.mpr hall, List.filter_eq_self.mpr hall]

/-! ## `binder_init` without binderfs -/

section Register

variable {initBinderDevice : Name → Int}

theorem registerLoop_ok {ws : List Name} (h : ∀ w ∈ ws, initBinderDevice w = 0) (devices : List Name) :
    registerLoop initBinderDevice devices ws = (devices ++ ws, 0) := by
  induction ws generalizing devices with
  | nil => rw [registerLoop, List.append_nil]
  | cons w ws ih =>
    obtain ⟨hw, hws⟩ := List.forall_mem_cons.mp h
    rw [registerLoop, if_neg (not_not.mpr hw), ih hws, List.append_assoc, List.singleton_append]

theorem registerLoop_error {ws : List Name} (h : ∃ w ∈ ws, initBinderDevice w ≠ 0)
    (devices : List Name) : (registerLoop initBinderDevice devices ws).2 ≠ 0 := by
  induction ws generalizing devices with
  | nil => simp at h
  | cons w ws ih =>
    rw [registerLoop]
    split
    · assumption
    · rename_i hw
      obtain ⟨v, hv, hne⟩ := h
      rcases List.mem_cons.mp hv with rfl | hv
      · exact absurd hne hw
      · exact ih ⟨v, hv, hne⟩ _

/-- The loop registers the tokens that are not empty, if and only if no token is empty. -/
theorem binderInitDevices_iff (hreg : ∀ w, w ≠ [] → initBinderDevice w = 0) :
    binderInitDevices initBinderDevice param = (names param, 0) ↔
      param = [] ∨ [] ∉ param.splitOn 44 := by
  rw [binderInitDevices]
  by_cases hp : param = []
  · subst hp
    simp [names]
  · rw [if_neg hp]
    by_cases hempty : [] ∈ param.splitOn 44
    · refine iff_of_false (fun heq => ?_) (not_or.mpr ⟨hp, not_not.mpr hempty⟩)
      by_cases hzero : initBinderDevice [] = 0
      · have hall : ∀ w ∈ param.splitOn 44, initBinderDevice w = 0 := fun w _ => by
          by_cases hw : w = []
          · rw [hw, hzero]
          · exact hreg w hw
        rw [registerLoop_ok hall, List.nil_append] at heq
        have hnames : [] ∈ names param := (Prod.mk.inj heq).1 ▸ hempty
        simp [names] at hnames
      · exact registerLoop_error ⟨[], hempty, hzero⟩ [] (congrArg Prod.snd heq)
    · refine iff_of_true ?_ (.inr hempty)
      have hne (w : Name) (hw : w ∈ param.splitOn 44) : w ≠ [] := fun h => hempty (h ▸ hw)
      rw [registerLoop_ok fun w hw => hreg w (hne w hw), List.nil_append, names,
        List.filter_eq_self.mpr fun w hw => by simpa using hne w hw]

end Register

/-! ## `binderfs_fill_super` -/

/-- Nothing fails: `ida_alloc_max` returns an id. -/
def Choice.good : Choice → Bool
  | .ok | .minor _ => true
  | _ => false

/-- The steps of the call `j` up to the end of the loop over the devices, when nothing fails. -/
inductive Fills (cfg : Config) (j : Nat) : Fs → Fs → Prop
  | done {s : Fs} {t : Task} : s.tasks[j]? = some t → t.acts = [.stats] → Fills cfg j s s
  | step {s s₁ s' : Fs} {t : Task} {c : Choice} : s.tasks[j]? = some t → t.acts ≠ [.stats] →
      c.good = true → s.exec cfg (.run j c) = some s₁ → Fills cfg j s₁ s' → Fills cfg j s s'

/-- The state after a device was created. -/
def Fs.withDevice (cfg : Config) (s : Fs) (j : Nat) (t : Task) (root : InodeId) (info : Info) (k : Nat)
    (name : Name) (param : List UInt8) : Fs :=
  (({ s with minors := insert k s.minors }.setMount t.sb
    (some { info with deviceCount := info.deviceCount + 1 })).link
      { deviceInode cfg t.sb k .binder with iPrivate := some (.device ⟨some name, k⟩) } root name).setTask
        j t [.devices param, .stats]

/-- The names of the devices that `s'` has and `s` has not. -/
def newNames (s s' : Fs) : List (Option Name) :=
  ((s'.inodes.drop s.inodes.length).filterMap fun o => o.bind Inode.device).map Device.name

/-- The next step of the call `j`. -/
theorem exec_next {act : Act} {rest : List Act} (ht : s.tasks[j]? = some t) (hacts : t.acts = act :: rest)
    (c : Choice) : s.exec cfg (.run j c) = s.runAct cfg j t rest c act := by
  simp [Fs.exec, ht, hacts]

theorem fills_next (ht : s.tasks[j]? = some t) (hne : t.acts ≠ [.stats]) :
    Fills cfg j s s' ↔ ∃ c s₁, c.good = true ∧ s.exec cfg (.run j c) = some s₁ ∧ Fills cfg j s₁ s' := by
  constructor
  · intro h
    cases h with
    | done ht' hacts =>
      cases ht.symm.trans ht'
      exact absurd hacts hne
    | step _ _ hc he h => exact ⟨_, _, hc, he, h⟩
  · rintro ⟨c, s₁, hc, he, h⟩
    exact .step ht hne hc he h

/-- There is one way to go on. -/
theorem fills_ok (ht : s.tasks[j]? = some t) (hne : t.acts ≠ [.stats])
    (hok : s.exec cfg (.run j .ok) = some s₁) (hno : ∀ k, s.exec cfg (.run j (.minor k)) = none) :
    Fills cfg j s s' ↔ Fills cfg j s₁ s' := by
  rw [fills_next ht hne]
  constructor
  · rintro ⟨c, s₂, hc, he, h⟩
    cases c with
    | ok =>
      cases hok.symm.trans he
      exact h
    | minor k => cases (hno k).symm.trans he
    | _ => cases hc
  · exact fun h => ⟨.ok, s₁, rfl, hok, h⟩

theorem setTask_setTask {t' : Task} {acts acts' : List Act} (hsb : t'.sb = t.sb)
    (hm : t'.mounting = t.mounting) (hr : t'.ret = t.ret) :
    (s.setTask j t acts).setTask j t' acts' = s.setTask j t acts' := by
  simp [Fs.setTask, hsb, hm, hr]

theorem getElem?_setTask (ht : s.tasks[j]? = some t) {acts : List Act} :
    (s.setTask j t acts).tasks[j]? = some { t with acts } :=
  List.getElem?_set_self (List.getElem?_eq_some_iff.mp ht).1

/-- From the minor to the device. -/
theorem fills_attach {req : Request} (ht : s.tasks[j]? = some t) (hroot : info.root = some root)
    (hpos : s.positive root req.cname = false) :
    Fills cfg j (({ s with minors := insert k s.minors }.setMount t.sb
      (some { info with deviceCount := info.deviceCount + 1 })).setTask j t
        [.prepare k req, .devices param, .stats]) s' ↔
      Fills cfg j (s.withDevice cfg j t root info k req.cname param) s' := by
  have hlt := (List.getElem?_eq_some_iff.mp ht).1
  generalize hu : ({ s with minors := insert k s.minors }.setMount t.sb
    (some { info with deviceCount := info.deviceCount + 1 })) = u
  have htu : u.tasks[j]? = some t := hu ▸ ht
  have hinfo : u.mounts t.sb = some { info with deviceCount := info.deviceCount + 1 } :=
    hu ▸ Function.update_self ..
  have hposu : u.positive root req.cname = false := hu ▸ hpos
  have hdev : s.withDevice cfg j t root info k req.cname param =
      (u.link { deviceInode cfg t.sb k .binder with iPrivate := some (.device ⟨some req.cname, k⟩) } root
        req.cname).setTask j t [.devices param, .stats] := by
    rw [← hu]
    rfl
  rw [hdev]
  -- `prepare`
  have h₁ : Fills cfg j (u.setTask j t [.prepare k req, .devices param, .stats]) s' ↔
      Fills cfg j (u.setTask j t [.attach k (deviceInode cfg t.sb k .binder) req.cname,
        .devices param, .stats]) s' := by
    have hne : ({ t with acts := [.prepare k req, .devices param, .stats] } : Task).acts ≠
        [.stats] := nofun
    refine fills_ok (getElem?_setTask htu) hne ?_ fun k' => ?_
    · rw [exec_next (getElem?_setTask htu) rfl, Fs.runAct, Fs.prepare]
      exact congrArg some (setTask_setTask rfl rfl rfl)
    · rw [exec_next (getElem?_setTask htu) rfl]
      rfl
  rw [h₁]
  -- `attach`
  generalize hv : u.setTask j t [.attach k (deviceInode cfg t.sb k .binder) req.cname,
    .devices param, .stats] = v
  have htv : v.tasks[j]? = some { t with acts := [.attach k (deviceInode cfg t.sb k .binder) req.cname,
      .devices param, .stats] } := hv ▸ getElem?_setTask htu
  have hinfov : v.mounts t.sb = some { info with deviceCount := info.deviceCount + 1 } := hv ▸ hinfo
  have hposv : v.positive root req.cname = false := hv ▸ hposu
  have hne : ({ t with acts := [.attach k (deviceInode cfg t.sb k .binder) req.cname,
      .devices param, .stats] } : Task).acts ≠ [.stats] := nofun
  refine fills_ok htv hne ?_ fun k' => ?_ <;> rw [exec_next htv rfl]
  · simp only [Fs.runAct, Fs.attach, hinfov, hroot, Option.bind_eq_bind, Option.bind_some, hposv,
      Bool.false_eq_true, if_false]
    rw [← hv]
    exact congrArg some (setTask_setTask (s := u.link _ root req.cname) rfl rfl rfl)
  · simp only [Fs.runAct, Fs.attach, hinfov, hroot, Option.bind_eq_bind, Option.bind_some]

/-- A round of the loop creates a device. -/
theorem fills_round {req : Request} (ht : s.tasks[j]? = some t) (hinfo : s.mounts t.sb = some info)
    (hroot : info.root = some root) (hacts : t.acts = [.devices param, .stats])
    (hname : param.takeWhile (· ≠ 44) ≠ []) (hreq : req = ⟨param.takeWhile (· ≠ 44), false⟩)
    (hcount : info.deviceCount + 1 ≤ info.mountOpts.max) (hpos : s.positive root req.cname = false) :
    Fills cfg j s s' ↔ ∃ k, k ∉ s.minors ∧ k ≤ maxMinor cfg info ∧
      Fills cfg j (s.withDevice cfg j t root info k req.cname (after param)) s' := by
  have hlt := (List.getElem?_eq_some_iff.mp ht).1
  -- `devices`
  have h₁ : Fills cfg j s s' ↔
      Fills cfg j (s.setTask j t [.reserve req, .devices (after param), .stats]) s' := by
    refine fills_ok ht (by rw [hacts]; nofun) ?_ fun k => ?_ <;> rw [exec_next ht hacts]
    · simp only [Fs.runAct, guard, if_true, Fs.devicesLoop, if_neg hname, hreq, after]
      rfl
    · rfl
  rw [h₁]
  -- `reserve`
  generalize hs₁ : s.setTask j t [.reserve req, .devices (after param), .stats] = s₁
  have ht₁ : s₁.tasks[j]? = some { t with acts := [.reserve req, .devices (after param), .stats] } :=
    hs₁ ▸ getElem?_setTask ht
  have hinfo₁ : s₁.mounts t.sb = some info := hs₁ ▸ hinfo
  have hminors₁ : s₁.minors = s.minors := hs₁ ▸ rfl
  have hset (k : Nat) : ({ s₁ with minors := insert k s₁.minors }.setMount t.sb
      (some { info with deviceCount := info.deviceCount + 1 })).setTask j
        { t with acts := [.reserve req, .devices (after param), .stats] }
          [.prepare k req, .devices (after param), .stats] =
      ({ s with minors := insert k s.minors }.setMount t.sb
        (some { info with deviceCount := info.deviceCount + 1 })).setTask j t
          [.prepare k req, .devices (after param), .stats] := by
    rw [← hs₁]
    simp [Fs.setTask, Fs.setMount]
  have hok : s₁.exec cfg (.run j .ok) = none := by
    rw [exec_next ht₁ rfl]
    simp only [Fs.runAct, Fs.reserve, hinfo₁, Option.bind_eq_bind, Option.bind_some, if_pos hcount]
  have hminor (k : Nat) : s₁.exec cfg (.run j (.minor k)) =
      if k ∉ s.minors ∧ k ≤ maxMinor cfg info then
        some (({ s with minors := insert k s.minors }.setMount t.sb
          (some { info with deviceCount := info.deviceCount + 1 })).setTask j t
            [.prepare k req, .devices (after param), .stats]) else none := by
    rw [exec_next ht₁ rfl, ← hset]
    simp only [Fs.runAct, Fs.reserve, hinfo₁, Option.bind_eq_bind, Option.bind_some, if_pos hcount,
      Fs.idaAllocMax, hminors₁]
    by_cases hk : k ∉ s.minors ∧ k ≤ maxMinor cfg info
    · have hk' : k ∉ s.minors ∧
          k ≤ maxMinor cfg { info with deviceCount := info.deviceCount + 1 } := hk
      rw [if_pos hk]
      simp only [guard, if_pos hk']
      rfl
    · have hk' : ¬ (k ∉ s.minors ∧
          k ≤ maxMinor cfg { info with deviceCount := info.deviceCount + 1 }) := hk
      rw [if_neg hk]
      simp only [guard, if_neg hk']
      rfl
  have hrest (k : Nat) : Fills cfg j (({ s with minors := insert k s.minors }.setMount t.sb
      (some { info with deviceCount := info.deviceCount + 1 })).setTask j t
        [.prepare k req, .devices (after param), .stats]) s' ↔
      Fills cfg j (s.withDevice cfg j t root info k req.cname (after param)) s' :=
    fills_attach ht hroot hpos
  have hne : ({ t with acts := [.reserve req, .devices (after param), .stats] } : Task).acts ≠
      [.stats] := nofun
  rw [fills_next ht₁ hne]
  constructor
  · rintro ⟨c, s₂, hc, he, h⟩
    cases c with
    | ok => cases hok.symm.trans he
    | minor k =>
      rw [hminor] at he
      split at he
      · rename_i hk
        cases he
        exact ⟨k, hk.1, hk.2, (hrest k).mp h⟩
      · cases he
    | _ => cases hc
  · rintro ⟨k, hk, hle, h⟩
    exact ⟨.minor k, _, rfl, (hminor k).trans (if_pos ⟨hk, hle⟩), (hrest k).mpr h⟩

theorem fills_done (ht : s.tasks[j]? = some t) (hacts : t.acts = [.devices param, .stats])
    (hname : param.takeWhile (· ≠ 44) = []) :
    Fills cfg j s s' ↔ s' = s.setTask j t [.stats] := by
  have h₁ : Fills cfg j s s' ↔ Fills cfg j (s.setTask j t [.stats]) s' := by
    refine fills_ok ht (by rw [hacts]; nofun) ?_ fun k => ?_ <;> rw [exec_next ht hacts]
    · simp only [Fs.runAct, guard, if_true, Fs.devicesLoop, if_pos hname]
      rfl
    · rfl
  rw [h₁]
  constructor
  · intro h
    cases h with
    | done => rfl
    | step ht' hne =>
      cases (getElem?_setTask ht).symm.trans ht'
      exact absurd rfl hne
  · rintro rfl
    exact .done (getElem?_setTask ht) rfl

/-- The full name is kept. -/
theorem cname_eq {w : Name} {user : Bool} (hlen : w.length ≤ binderfsMaxName) (hnul : 0 ∉ w) :
    Request.cname ⟨w, user⟩ = w := by
  rw [Request.cname, List.take_of_length_le hlen, List.takeWhile_eq_self_iff.mpr]
  exact fun c hc => decide_eq_true fun h => hnul (h ▸ hc)

/-- The loop over the devices is about to start, and nothing is in its way: no NUL in the parameter,
names that are short enough, different, and not there yet, and `max` is large enough. -/
structure Ready (s : Fs) (j : Nat) (t : Task) (root : InodeId) (info : Info) (param : List UInt8) :
    Prop where
  task : s.tasks[j]? = some t
  acts : t.acts = [.devices param, .stats]
  mount : s.mounts t.sb = some info
  rootInode : info.root = some root
  nul : 0 ∉ param
  short : ∀ w ∈ readNames param, w.length ≤ binderfsMaxName
  nodup : (readNames param).Nodup
  lookup : ∀ w ∈ readNames param, s.positive root w = false
  count : info.deviceCount + (readNames param).length ≤ info.mountOpts.max

/-- After a round. -/
theorem Ready.next (cfg : Config) (h : Ready s j t root info param)
    (hname : param.takeWhile (· ≠ 44) ≠ []) (k : Nat) :
    Ready (s.withDevice cfg j t root info k (param.takeWhile (· ≠ 44)) (after param)) j
      { t with acts := [.devices (after param), .stats] } root
      { info with deviceCount := info.deviceCount + 1 } (after param) := by
  have hread := (readNames_eq param).trans (if_neg hname)
  have hcount := h.count
  have hshort := h.short
  have hnodup := h.nodup
  have hlookup := h.lookup
  rw [hread] at hcount hshort hnodup hlookup
  obtain ⟨hnew, hnodup⟩ := List.nodup_cons.mp hnodup
  refine ⟨getElem?_setTask h.task, rfl, Function.update_self .., h.rootInode, fun hz => h.nul ?_,
    fun w hw => hshort w (List.mem_cons_of_mem _ hw), hnodup, fun w hw => ?_, ?_⟩
  · exact List.mem_of_mem_drop (List.mem_of_mem_drop hz)
  · have hne : param.takeWhile (· ≠ 44) ≠ w := fun he => hnew (he ▸ hw)
    have hold := hlookup w (List.mem_cons_of_mem _ hw)
    have : (s.withDevice cfg j t root info k (param.takeWhile (· ≠ 44)) (after param)).positive root w =
        (root == root && param.takeWhile (· ≠ 44) == w || s.positive root w) := rfl
    rw [this, hold, beq_false_of_ne hne]
    simp
  · rw [List.length_cons] at hcount
    push_cast at hcount
    dsimp only
    omega

/-- When nothing fails, the loop creates one device for each token before the first empty one. -/
theorem Ready.fills (cfg : Config) (h : Ready s j t root info param) :
    (∀ s', Fills cfg j s s' → ∃ new, s'.inodes = s.inodes ++ new ∧
      (new.filterMap fun o => o.bind Inode.device).map Device.name = (readNames param).map some) ∧
    ((readNames param).length ≤ (Finset.range (maxMinor cfg info + 1) \ s.minors).card →
      ∃ s', Fills cfg j s s') := by
  induction hlen : param.length using Nat.strong_induction_on generalizing param s t info with
  | _ n ih =>
  by_cases hname : param.takeWhile (· ≠ 44) = []
  · have hread := (readNames_eq param).trans (if_pos hname)
    rw [hread]
    refine ⟨fun s' hs' => ⟨[], ?_, rfl⟩, fun _ => ⟨_, (fills_done h.task h.acts hname).mpr rfl⟩⟩
    rw [(fills_done h.task h.acts hname).mp hs', List.append_nil]
    rfl
  · have hread := (readNames_eq param).trans (if_neg hname)
    have hmem : param.takeWhile (· ≠ 44) ∈ readNames param := hread ▸ List.mem_cons_self
    have hcname : Request.cname ⟨param.takeWhile (· ≠ 44), false⟩ = param.takeWhile (· ≠ 44) :=
      cname_eq (h.short _ hmem) fun hz => h.nul ((param.takeWhile_prefix _).subset hz)
    have hcount : info.deviceCount + 1 ≤ info.mountOpts.max := by
      have := h.count
      rw [hread, List.length_cons] at this
      push_cast at this
      omega
    have hpos : s.positive root (Request.cname ⟨param.takeWhile (· ≠ 44), false⟩) = false := by
      rw [hcname]
      exact h.lookup _ hmem
    have hround (s' : Fs) : Fills cfg j s s' ↔ ∃ k, k ∉ s.minors ∧ k ≤ maxMinor cfg info ∧
        Fills cfg j (s.withDevice cfg j t root info k
          (Request.cname ⟨param.takeWhile (· ≠ 44), false⟩) (after param)) s' :=
      fills_round h.task h.mount h.rootInode h.acts hname rfl hcount hpos
    rw [hcname] at hround
    have hnext (k : Nat) := ih _ (hlen ▸ after_length hname) (h.next cfg hname k) rfl
    refine ⟨fun s' hs' => ?_, fun henough => ?_⟩
    · obtain ⟨k, -, -, hs'⟩ := (hround s').mp hs'
      obtain ⟨new, hinodes, hnames⟩ := (hnext k).1 s' hs'
      refine ⟨some { deviceInode cfg t.sb k .binder with
        iPrivate := some (.device ⟨some (param.takeWhile (· ≠ 44)), k⟩) } :: new, ?_, ?_⟩
      · rw [hinodes]
        exact List.append_assoc ..
      · rw [hread, List.map_cons, ← hnames]
        rfl
    · have hpos : 0 < (Finset.range (maxMinor cfg info + 1) \ s.minors).card := by
        rw [hread, List.length_cons] at henough
        omega
      obtain ⟨k, hk⟩ := Finset.card_pos.mp hpos
      obtain ⟨hle, hfree⟩ := Finset.mem_sdiff.mp hk
      obtain ⟨s', hs'⟩ := (hnext k).2 (by
        have herase : Finset.range (maxMinor cfg info + 1) \ insert k s.minors =
            (Finset.range (maxMinor cfg info + 1) \ s.minors).erase k := Finset.sdiff_insert ..
        show _ ≤ (Finset.range (maxMinor cfg info + 1) \ insert k s.minors).card
        rw [herase, Finset.card_erase_of_mem hk]
        rw [hread, List.length_cons] at henough
        omega)
      exact ⟨s', (hround s').mpr ⟨k, hfree, Nat.le_of_lt_succ (Finset.mem_range.mp hle), hs'⟩⟩

/-- The loops agree: `init_binderfs` rejects the parameter if and only if a token is too long, and if it
succeeds the other two loops make one device of each token that is not empty. -/
def Agree (cfg : Config) (s : Fs) (j : Nat) (region register : Int) (initBinderDevice : Name → Int) :
    Prop :=
  (initBinderfs cfg.devices region register = -e2big ↔
    ∃ w ∈ cfg.devices.splitOn 44, binderfsMaxName < w.length) ∧
  (initBinderfs cfg.devices region register = 0 →
    ((∃ s', Fills cfg j s s') ∧ ∀ s', Fills cfg j s s' → newNames s s' = (names cfg.devices).map some) ∧
    binderInitDevices initBinderDevice cfg.devices = (names cfg.devices, 0))

theorem initBinderfs_e2big {region register : Int} (hregion : region ≠ -e2big)
    (hregister : register ≠ -e2big) : initBinderfs param region register = -e2big ↔
      ∃ w ∈ readNames param, binderfsMaxName < w.length := by
  rw [initBinderfs, checkNames_eq]
  by_cases hlong : ∃ w ∈ readNames param, binderfsMaxName < w.length
  · have hne : -e2big ≠ 0 := by decide
    rw [if_pos hlong, if_pos hne]
    exact iff_of_true rfl hlong
  · rw [if_neg hlong, if_neg (not_not.mpr rfl)]
    refine iff_of_false ?_ hlong
    split <;> assumption

theorem initBinderfs_zero {region register : Int} : initBinderfs param region register = 0 ↔
    (∀ w ∈ readNames param, w.length ≤ binderfsMaxName) ∧ region = 0 ∧ register = 0 := by
  rw [initBinderfs, checkNames_eq]
  by_cases hlong : ∃ w ∈ readNames param, binderfsMaxName < w.length
  · have hne : -e2big ≠ 0 := by decide
    rw [if_pos hlong, if_pos hne]
    obtain ⟨w, hw, hlt⟩ := hlong
    exact iff_of_false hne fun h => absurd (h.1 w hw) (Nat.not_le.mpr hlt)
  · have hshort : ∀ w ∈ readNames param, w.length ≤ binderfsMaxName := fun w hw =>
      Nat.le_of_not_lt fun hlt => hlong ⟨w, hw, hlt⟩
    rw [if_neg hlong, if_neg (not_not.mpr rfl)]
    by_cases hregion : region = 0
    · rw [if_neg (not_not.mpr hregion)]
      exact ⟨fun h => ⟨hshort, hregion, h⟩, fun h => h.2.2⟩
    · rw [if_pos hregion]
      exact iff_of_false hregion fun h => hregion h.2.1

/-- The three loops agree on the parameter if and only if: a token that is too long is among those
before the first empty token, or there is none; and if `init_binderfs` succeeds, no token is empty. -/
theorem devices_agree_iff (cfg : Config) (s : Fs) (j : Nat) (t : Task) (root : InodeId) (info : Info)
    (region register : Int) (initBinderDevice : Name → Int) (ht : s.tasks[j]? = some t)
    (hacts : t.acts = [.devices cfg.devices, .stats]) (hinfo : s.mounts t.sb = some info)
    (hroot : info.root = some root) (hnul : 0 ∉ cfg.devices) (hnodup : (names cfg.devices).Nodup)
    (hlookup : ∀ w ∈ names cfg.devices, s.positive root w = false)
    (hmax : info.deviceCount + (names cfg.devices).length ≤ info.mountOpts.max)
    (hfree : (names cfg.devices).length ≤ (Finset.range (maxMinor cfg info + 1) \ s.minors).card)
    (hregion : region ≠ -e2big) (hregister : register ≠ -e2big)
    (hinit : ∀ w, w ≠ [] → initBinderDevice w = 0) :
    Agree cfg s j region register initBinderDevice ↔
      ((∃ w ∈ names cfg.devices, binderfsMaxName < w.length) →
        ∃ w ∈ readNames cfg.devices, binderfsMaxName < w.length) ∧
      ((∀ w ∈ readNames cfg.devices, w.length ≤ binderfsMaxName) → region = 0 → register = 0 →
        cfg.devices = [] ∨ [] ∉ cfg.devices.splitOn 44) := by
  have hprefix := readNames_prefix cfg.devices
  have hlong : (∃ w ∈ cfg.devices.splitOn 44, binderfsMaxName < w.length) ↔
      ∃ w ∈ names cfg.devices, binderfsMaxName < w.length := by
    constructor
    · rintro ⟨w, hw, hlt⟩
      refine ⟨w, List.mem_filter.mpr ⟨hw, decide_eq_true ?_⟩, hlt⟩
      rintro rfl
      cases hlt
    · rintro ⟨w, hw, hlt⟩
      exact ⟨w, (List.mem_filter.mp hw).1, hlt⟩
  have hsub : (∃ w ∈ readNames cfg.devices, binderfsMaxName < w.length) →
      ∃ w ∈ names cfg.devices, binderfsMaxName < w.length := fun ⟨w, hw, hlt⟩ =>
    ⟨w, hprefix.subset hw, hlt⟩
  rw [Agree, initBinderfs_e2big hregion hregister, initBinderfs_zero, hlong, binderInitDevices_iff hinit]
  refine and_congr ⟨fun h => h.mpr, fun h => ⟨hsub, h⟩⟩ ⟨fun h hshort hr hr' =>
    (h ⟨hshort, hr, hr'⟩).2, fun h ⟨hshort, hr, hr'⟩ => ⟨?_, h hshort hr hr'⟩⟩
  have hfull := readNames_full (h hshort hr hr')
  have hready : Ready s j t root info cfg.devices := by
    refine ⟨ht, hacts, hinfo, hroot, hnul, hshort, ?_, ?_, ?_⟩ <;> rw [hfull] <;> assumption
  obtain ⟨hall, hex⟩ := hready.fills cfg
  rw [hfull] at hall hex
  refine ⟨hex hfree, fun s' hs' => ?_⟩
  obtain ⟨new, hinodes, hnames⟩ := hall s' hs'
  rw [newNames, hinodes, List.drop_left, hnames]

/-- The initial namespace 0, and these default devices. -/
def withDevices (devices : List UInt8) : Config where
  major := 510
  initIpcNs := 0
  ipcNs := true
  devices := devices
  matchToken := fun _ => .err

/-- A mount, up to the loop over the devices. -/
def beforeLoop (devices : List UInt8) : Fs where
  minors := {0}
  mounts := Function.update (fun _ => none) 0
    (some ⟨0, some 1, ⟨binderfsMaxMinor, .none⟩, 0, some 0, .filling⟩)
  inodes := [some ⟨0, .dir, 0, .dir, none, 0⟩,
    some { deviceInode (withDevices devices) 0 0 .ctl with iPrivate := some (.device ⟨none, 0⟩) }]
  dentries := [⟨0, binderControl, 1⟩]
  tasks := [⟨0, true, [.devices devices, .stats], 0⟩]
  ipcRefs := Function.update (fun _ => 0) 0 1

/-- `"binder,hwbinder,vndbinder"`, the parameter of the out-of-tree build. -/
def defaultDevices : List UInt8 :=
  [98, 105, 110, 100, 101, 114, 44, 104, 119, 98, 105, 110, 100, 101, 114, 44,
    118, 110, 100, 98, 105, 110, 100, 101, 114]

/-- The loops agree on the three default devices. -/
theorem devices_agree_default :
    Agree (withDevices defaultDevices) (beforeLoop defaultDevices) 0 0 0 fun _ => 0 := by
  refine (devices_agree_iff _ _ 0 _ 0 ⟨0, some 1, ⟨binderfsMaxMinor, .none⟩, 0, some 0, .filling⟩ 0 0 _
    rfl rfl rfl rfl (by decide) (by decide +kernel) (by decide +kernel) (by decide +kernel) ?_ (by decide)
    (by decide) fun _ _ => rfl).mpr ⟨fun ⟨w, hw, hlt⟩ => ⟨w, hw, hlt⟩, fun _ _ _ => .inr (by decide +kernel)⟩
  have hnames : (names (withDevices defaultDevices).devices).length = 3 := by decide +kernel
  rw [hnames]
  refine Nat.le_trans ?_ (Finset.le_card_sdiff ..)
  rw [Finset.card_range]
  exact (by decide : 3 ≤ binderfsMaxMinor + 1 - 1)

/-- After `"a,,b"` there is no device `b`. -/
theorem device_missed : ¬ Agree (withDevices [97, 44, 44, 98]) (beforeLoop [97, 44, 44, 98]) 0 0 0
    fun _ => 0 := by
  intro h
  have hzero : initBinderfs (withDevices [97, 44, 44, 98]).devices 0 0 = 0 := by
    rw [initBinderfs_zero]
    exact ⟨by decide +kernel, rfl, rfl⟩
  have hready : Ready (beforeLoop [97, 44, 44, 98]) 0 ⟨0, true, [.devices [97, 44, 44, 98], .stats], 0⟩ 0
      ⟨0, some 1, ⟨binderfsMaxMinor, .none⟩, 0, some 0, .filling⟩ [97, 44, 44, 98] :=
    ⟨rfl, rfl, rfl, rfl, by decide, by decide +kernel, by decide +kernel, by decide +kernel,
      by decide +kernel⟩
  obtain ⟨⟨s', hs'⟩, hall⟩ := (h.2 hzero).1
  obtain ⟨new, hinodes, hnew⟩ := (hready.fills _).1 s' hs'
  have hnames := hall s' hs'
  rw [newNames, hinodes, List.drop_left, hnew] at hnames
  exact absurd hnames (by decide +kernel)

end Redroid.Binderfs
