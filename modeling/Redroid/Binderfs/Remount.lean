import Redroid.Binderfs.Fs

/-!
# The options of a remount

`binderfs_parse_mount_opts` fills the options of the mount while it reads the tokens, so a string that
is rejected may have changed them.

* `tokens`: the tokens of the string; `maxValue`, `isStats`: what they set.
* `readBefore`: the tokens up to the first one that is rejected.
* `remountOpts_iff`: an error leaves the options as they were if and only if those read before it are
  the previous ones.
-/

namespace Redroid.Binderfs

variable {cfg : Config} {admin : Bool} {strdup : Nat → Bool} {p : List UInt8} {ps : List (List UInt8)}
  {opts : MountOpts}

/-- What `strsep` makes of the string. -/
def tokens (data : Option (List UInt8)) : List (List UInt8) := (data.map (·.splitOn 44)).getD []

/-- The value of a token `max=`. -/
def maxValue (cfg : Config) (p : List UInt8) : Option Int :=
  if p = [] then none
  else match cfg.matchToken p with
    | .max n => n
    | _ => none

/-- The token is `stats=`. -/
def isStats (cfg : Config) (p : List UInt8) : Bool :=
  if p = [] then false
  else match cfg.matchToken p with
    | .stats _ => true
    | _ => false

/-- A token that is not rejected. `dup`: `match_strdup` succeeds. -/
def accepted (cfg : Config) (admin dup : Bool) (p : List UInt8) : Bool :=
  if p = [] then true
  else match cfg.matchToken p with
    | .max none => false
    | .max (some n) => decide (0 ≤ n ∧ n ≤ binderfsMaxMinor)
    | .stats arg => admin && dup && decide (arg = globalStats)
    | .err => false

/-- The tokens before the first one that is rejected. -/
def readBefore (cfg : Config) (admin : Bool) (strdup : Nat → Bool) :
    List (List UInt8) → List (List UInt8)
  | [] => []
  | p :: ps =>
    if accepted cfg admin (strdup ps.length) p then p :: readBefore cfg admin strdup ps else []

/-- The value of the last token `max=`. -/
def lastMax (cfg : Config) (ps : List (List UInt8)) (default : Int) : Int :=
  (ps.filterMap (maxValue cfg)).getLast?.getD default

/-- The mode after the tokens. -/
def lastMode (cfg : Config) (ps : List (List UInt8)) (default : StatsMode) : StatsMode :=
  if ps.any (isStats cfg) then .global else default

/-! ## What the parser does -/

theorem lastMax_cons (p : List UInt8) (ps : List (List UInt8)) (n : Int) :
    lastMax cfg (p :: ps) n = lastMax cfg ps ((maxValue cfg p).getD n) := by
  rw [lastMax, List.filterMap_cons]
  cases maxValue cfg p with
  | none => rfl
  | some k => rw [List.getLast?_cons, Option.getD_some, lastMax, Option.getD_some]

theorem lastMode_cons (p : List UInt8) (ps : List (List UInt8)) (mode : StatsMode) :
    lastMode cfg (p :: ps) mode = lastMode cfg ps (if isStats cfg p then .global else mode) := by
  rw [lastMode, lastMode, List.any_cons]
  cases isStats cfg p <;> cases ps.any (isStats cfg) <;> rfl

/-- One token. -/
theorem parseLoop_cons : parseLoop cfg admin strdup (p :: ps) opts =
    if accepted cfg admin (strdup ps.length) p then
      parseLoop cfg admin strdup ps
        ⟨(maxValue cfg p).getD opts.max, if isStats cfg p then .global else opts.statsMode⟩
    else (if admin && !strdup ps.length && isStats cfg p then -enomem else -einval, opts) := by
  rw [parseLoop, accepted, maxValue, isStats]
  by_cases hp : p = []
  · simp [hp]
  · simp only [if_neg hp]
    cases cfg.matchToken p with
    | max n =>
      cases n with
      | none => simp
      | some n =>
        by_cases hn : n < 0 ∨ n > binderfsMaxMinor
        · have : ¬ (0 ≤ n ∧ n ≤ binderfsMaxMinor) := by omega
          simp [hn, this]
        · have : 0 ≤ n ∧ n ≤ binderfsMaxMinor := by omega
          simp [hn, this]
    | stats arg =>
      by_cases harg : arg = globalStats <;> cases admin <;> cases strdup ps.length <;> simp [harg]
    | err => simp

/-- The options are those of the tokens that were read, and the result is 0 if all were. -/
theorem parseLoop_spec (cfg : Config) (admin : Bool) (strdup : Nat → Bool) (ps : List (List UInt8))
    (opts : MountOpts) :
    (parseLoop cfg admin strdup ps opts).2 =
      ⟨lastMax cfg (readBefore cfg admin strdup ps) opts.max,
        lastMode cfg (readBefore cfg admin strdup ps) opts.statsMode⟩ ∧
    ((parseLoop cfg admin strdup ps opts).1 = 0 ↔ readBefore cfg admin strdup ps = ps) := by
  induction ps generalizing opts with
  | nil => exact ⟨rfl, by simp [parseLoop, readBefore]⟩
  | cons p ps ih =>
    rw [parseLoop_cons, readBefore]
    by_cases hacc : accepted cfg admin (strdup ps.length) p = true
    · obtain ⟨hopts, hret⟩ := ih ⟨(maxValue cfg p).getD opts.max,
        if isStats cfg p then .global else opts.statsMode⟩
      rw [if_pos hacc, if_pos hacc, hopts, hret, lastMax_cons, lastMode_cons]
      exact ⟨rfl, by simp⟩
    · rw [if_neg hacc, if_neg hacc]
      refine ⟨rfl, iff_of_false ?_ nofun⟩
      dsimp only
      split <;> decide

/-- The values of the tokens that were read. -/
theorem lastMax_bounds (cfg : Config) (admin : Bool) (strdup : Nat → Bool) (ps : List (List UInt8))
    (n : Int) (hn : 0 ≤ n ∧ n ≤ binderfsMaxMinor) :
    0 ≤ lastMax cfg (readBefore cfg admin strdup ps) n ∧
      lastMax cfg (readBefore cfg admin strdup ps) n ≤ binderfsMaxMinor := by
  induction ps generalizing n with
  | nil => exact hn
  | cons p ps ih =>
    rw [readBefore]
    split
    · rename_i hacc
      rw [lastMax_cons]
      refine ih _ ?_
      rw [accepted] at hacc
      rw [maxValue]
      split
      · exact hn
      · rename_i hp
        rw [if_neg hp] at hacc
        cases hm : cfg.matchToken p with
        | max n => cases n <;> simp_all
        | stats | err => exact hn
    · exact hn

/-- The result of `binderfs_remount`, and the options after it. -/
theorem remountOpts_spec (cfg : Config) (admin : Bool) (strdup : Nat → Bool)
    (data : Option (List UInt8)) (opts : MountOpts) {read : List (List UInt8)}
    (hread : readBefore cfg admin strdup (tokens data) = read) :
    ((remountOpts cfg admin strdup data opts).1 = 0 ↔
      read = tokens data ∧ lastMode cfg read .none = opts.statsMode) ∧
    (remountOpts cfg admin strdup data opts).2 = ⟨lastMax cfg read binderfsMaxMinor,
      if read = tokens data then opts.statsMode else lastMode cfg read .none⟩ := by
  obtain ⟨hopts, hret⟩ := parseLoop_spec cfg admin strdup (tokens data) ⟨binderfsMaxMinor, .none⟩
  rw [hread] at hopts hret
  rw [remountOpts, binderfsParseMountOpts]
  rw [← tokens]
  generalize parseLoop cfg admin strdup (tokens data) ⟨binderfsMaxMinor, .none⟩ = x at hopts hret
  obtain ⟨ret, opts'⟩ := x
  dsimp only at hopts hret ⊢
  subst hopts
  by_cases hall : read = tokens data
  · have hzero := hret.mpr hall
    rw [if_neg (not_not.mpr hzero)]
    by_cases hmode : lastMode cfg read .none = opts.statsMode
    · simp [hall, ← hmode]
    · rw [if_pos (Ne.symm hmode), if_pos hall]
      have hne : -einval ≠ 0 := by decide
      exact ⟨iff_of_false hne fun h => hmode h.2, rfl⟩
  · have hne : ret ≠ 0 := fun hzero => hall (hret.mp hzero)
    rw [if_pos hne]
    simp [hall, hne]

/-- A remount succeeds, or the options that were read before it fails are the previous ones. -/
def Kept (cfg : Config) (admin : Bool) (strdup : Nat → Bool) (data : Option (List UInt8))
    (opts : MountOpts) : Prop :=
  let read := readBefore cfg admin strdup (tokens data)
  (read = tokens data ∧ lastMode cfg read .none = opts.statsMode) ∨
    (lastMax cfg read binderfsMaxMinor = opts.max ∧
      (read = tokens data ∨ lastMode cfg read .none = opts.statsMode))

/-- A remount that fails leaves the options as they were, and one that succeeds sets `max` to the value
of the last `max=` or to the default and keeps the mode, if and only if it succeeds or the options that
were read before it fails are the previous ones. -/
theorem remountOpts_iff (cfg : Config) (admin : Bool) (strdup : Nat → Bool)
    (data : Option (List UInt8)) (opts : MountOpts) :
    (((remountOpts cfg admin strdup data opts).1 ≠ 0 →
        (remountOpts cfg admin strdup data opts).2 = opts) ∧
      ((remountOpts cfg admin strdup data opts).1 = 0 →
        (remountOpts cfg admin strdup data opts).2.statsMode = opts.statsMode ∧
        (remountOpts cfg admin strdup data opts).2.max =
          lastMax cfg (tokens data) binderfsMaxMinor ∧
        0 ≤ (remountOpts cfg admin strdup data opts).2.max ∧
        (remountOpts cfg admin strdup data opts).2.max ≤ binderfsMaxMinor)) ↔
    Kept cfg admin strdup data opts := by
  have hbounds := lastMax_bounds cfg admin strdup (tokens data) binderfsMaxMinor
    ⟨Int.natCast_nonneg _, Int.le_refl _⟩
  rw [Kept]
  generalize hread : readBefore cfg admin strdup (tokens data) = read at hbounds
  obtain ⟨hret, hopts⟩ := remountOpts_spec cfg admin strdup data opts hread
  rw [hopts, Ne, hret]
  by_cases hall : read = tokens data
  · by_cases hmode : lastMode cfg read .none = opts.statsMode
    · rw [← hall]
      simp [hmode, hbounds]
    · obtain ⟨max, mode⟩ := opts
      have hmode : lastMode cfg read .none ≠ mode := hmode
      rw [← hall] at *
      simp [hmode]
  · cases opts
    simp [hall]

/-- No token is known. -/
def noOptions : Config where
  major := 510
  initIpcNs := 0
  ipcNs := true
  devices := []
  matchToken := fun _ => .err

/-- The limit of 5 devices is lifted by a remount with the options `"x"`, which fails. -/
theorem limit_lifted :
    (remountOpts noOptions true (fun _ => true) (some [120]) ⟨5, .none⟩).1 = -einval ∧
    ¬ ((remountOpts noOptions true (fun _ => true) (some [120]) ⟨5, .none⟩).1 ≠ 0 →
      (remountOpts noOptions true (fun _ => true) (some [120]) ⟨5, .none⟩).2 = ⟨5, .none⟩) := by
  decide +kernel

end Redroid.Binderfs
