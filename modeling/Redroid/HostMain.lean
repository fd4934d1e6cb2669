import Mathlib.Data.List.Basic

/-!
# The options of the host program (`ipcverify/src/host_main.c`)

`main` reads the options, runs the local checks, asks what was not given, and calls
`run_adb_verification`. With `--yes` nothing is asked.

* `parseArgs`: the loop over the arguments; `Opt`: the options that it accepts.
* `main`: up to the call of `run_adb_verification`.
* `main_connects_iff`: with `--yes` the host and the port of the options are replaced by the defaults.

Texts are lists of characters, without the terminating NUL.
-/

namespace Redroid.HostMain

abbrev Text := List Char

/-- `DEFAULT_ADB_HOST` -/
def defaultAdbHost : Text := "localhost".toList

/-- `DEFAULT_ADB_PORT` -/
def defaultAdbPort : Text := "5555".toList

/-- `sizeof(adb_host)`, `sizeof(adb_port)` and `sizeof(apk_path)` -/
def adbHostSize : Nat := 128
def adbPortSize : Nat := 32
def pathMax : Nat := 4096

/-- `snprintf(dest, size, "%s", text)` -/
def snprintf (size : Nat) (text : Text) : Text := text.take (size - 1)

/-! ## The arguments -/

/-- The variables of `main` that the options set. -/
structure Settings where
  adbHost : Text
  adbPort : Text
  apkPath : Text
  assumeYes : Bool
  skipAndroid : Bool
  verifyAndroidRequested : Bool
  deriving DecidableEq, Repr

def Settings.start : Settings := ⟨defaultAdbHost, defaultAdbPort, [], false, false, false⟩

/-- How the loop over the arguments ends. -/
inductive Parsed where
  | accepted (st : Settings)
  | help
  | unknown (arg : Text)
  deriving DecidableEq, Repr

/-- An option without a value. -/
def flag (st : Settings) (arg : Text) : Option Settings :=
  if arg = "--yes".toList then some { st with assumeYes := true }
  else if arg = "--verify-android".toList then some { st with verifyAndroidRequested := true }
  else if arg = "--no-android".toList ∨ arg = "--local-only".toList then
    some { st with skipAndroid := true }
  else none

/-- An option with a value. -/
def valued (st : Settings) (arg value : Text) : Option Settings :=
  if arg = "--adb-host".toList then some { st with adbHost := snprintf adbHostSize value }
  else if arg = "--adb-port".toList then some { st with adbPort := snprintf adbPortSize value }
  else if arg = "--apk".toList then some { st with apkPath := snprintf pathMax value }
  else none

/-- What the loop does with any other argument. -/
def other (arg : Text) : Parsed :=
  if arg = "--help".toList ∨ arg = "-h".toList then .help else .unknown arg

/-- The loop over the arguments. -/
def parseArgs (st : Settings) : List Text → Parsed
  | [] => .accepted st
  | [arg] =>
    match flag st arg with
    | some st => .accepted st
    | none => other arg
  | arg :: value :: args =>
    match flag st arg with
    | some st => parseArgs st (value :: args)
    | none =>
      match valued st arg value with
      | some st => parseArgs st args
      | none => other arg

/-! ## The questions -/

/-- `fgets(buffer, size, stdin)`: the line, and what is left. -/
def fgets (size : Nat) (stdin : Text) : Option (Text × Text) :=
  if stdin = [] then none
  else
    let line := stdin.takeWhile (· ≠ '\n') ++ (stdin.dropWhile (· ≠ '\n')).take 1
    some (line.take (size - 1), stdin.drop (line.take (size - 1)).length)

/-- `trim_newline` -/
def trimNewline (text : Text) : Text :=
  (text.reverse.dropWhile fun c => c = '\n' ∨ c = '\r').reverse

/-- `copy_with_default` -/
def copyWithDefault (size : Nat) (value fallback : Text) : Text :=
  let source := if value ≠ [] then value else fallback
  if size ≤ source.length then source.take (size - 1) else source

/-- `ask_yes_no`: the answer, and what is left of the input. -/
def askYesNo (defaultYes assumeYes : Bool) (stdin : Text) : Bool × Text :=
  if assumeYes then (defaultYes, stdin)
  else match fgets 32 stdin with
    | none => (defaultYes, stdin)
    | some (answer, rest) =>
      match trimNewline answer with
      | [] => (defaultYes, rest)
      | c :: _ => (c = 'y' ∨ c = 'Y', rest)

/-- `ask_value`: the buffer, and what is left of the input. -/
def askValue (fallback : Text) (size : Nat) (assumeYes : Bool) (stdin : Text) : Text × Text :=
  if assumeYes then (copyWithDefault size fallback fallback, stdin)
  else match fgets 256 stdin with
    | none => (copyWithDefault size fallback fallback, stdin)
    | some (input, rest) => (copyWithDefault size (trimNewline input) fallback, rest)

/-! ## `main` -/

/-- What `main` finds: the result of the local checks, the input, and whether `find_adb_binary` and
`ensure_android_apk` succeed. -/
structure Env where
  localRc : Int
  binderOk : Bool
  stdin : Text
  adbFound : Bool
  apkFound : Text → Bool

/-- `main` returns before `run_adb_verification`, or calls it. -/
inductive Outcome where
  | exit (rc : Int)
  | verify (adbHost adbPort : Text)
  deriving DecidableEq, Repr

/-- `main` after the local checks. -/
def verifyAndroid (st : Settings) (env : Env) : Outcome :=
  let (yes, stdin) := if st.verifyAndroidRequested then (true, env.stdin)
    else if st.skipAndroid then (false, env.stdin) else askYesNo true st.assumeYes env.stdin
  if !yes then .exit env.localRc
  else
    let (remote, stdin) := if env.binderOk then (true, stdin) else askYesNo false st.assumeYes stdin
    if !remote then .exit 1
    else
      let (adbHost, stdin) := askValue defaultAdbHost adbHostSize st.assumeYes stdin
      let (adbPort, _) := askValue defaultAdbPort adbPortSize st.assumeYes stdin
      if !env.adbFound then .exit 1
      else if !env.apkFound st.apkPath then .exit 1
      else .verify adbHost adbPort

/-- `main`, up to the call of `run_adb_verification`. `args` are those after the name of the program. -/
def main (args : List Text) (env : Env) : Outcome :=
  match parseArgs .start args with
  | .help => .exit 0
  | .unknown _ => .exit 2
  | .accepted st => verifyAndroid st env

/-! ## Options -/

/-- An option that `main` accepts. -/
inductive Opt where
  | yes
  | verifyAndroid
  | noAndroid
  | localOnly
  | adbHost (host : Text)
  | adbPort (port : Text)
  | apk (path : Text)
  deriving DecidableEq, Repr

namespace Opt

/-- The arguments of an option. -/
def args : Opt → List Text
  | yes => ["--yes".toList]
  | verifyAndroid => ["--verify-android".toList]
  | noAndroid => ["--no-android".toList]
  | localOnly => ["--local-only".toList]
  | adbHost host => ["--adb-host".toList, host]
  | adbPort port => ["--adb-port".toList, port]
  | apk path => ["--apk".toList, path]

/-- What an option sets. -/
def apply (st : Settings) : Opt → Settings
  | yes => { st with assumeYes := true }
  | verifyAndroid => { st with verifyAndroidRequested := true }
  | noAndroid | localOnly => { st with skipAndroid := true }
  | adbHost host => { st with adbHost := snprintf adbHostSize host }
  | adbPort port => { st with adbPort := snprintf adbPortSize port }
  | apk path => { st with apkPath := snprintf pathMax path }

def host? : Opt → Option Text
  | adbHost host => some host
  | _ => none

def port? : Opt → Option Text
  | adbPort port => some port
  | _ => none

def path? : Opt → Option Text
  | apk path => some path
  | _ => none

end Opt

variable {st : Settings} {env : Env} {opts : List Opt} {args : List Text}

/-- The last `--adb-host`, or the default. -/
def lastHost (opts : List Opt) : Text := (opts.filterMap Opt.host?).getLast?.getD defaultAdbHost

/-- The last `--adb-port`, or the default. -/
def lastPort (opts : List Opt) : Text := (opts.filterMap Opt.port?).getLast?.getD defaultAdbPort

/-- The options are read one after the other. -/
theorem parseArgs_args (opts : List Opt) (st : Settings) :
    parseArgs st (opts.flatMap Opt.args) = .accepted (opts.foldl Opt.apply st) := by
  induction opts generalizing st with
  | nil => rfl
  | cons opt opts ih =>
    rw [List.flatMap_cons, List.foldl_cons, ← ih]
    cases opt with
    | adbHost | adbPort | apk => rfl
    | yes | verifyAndroid | noAndroid | localOnly =>
      cases opts.flatMap Opt.args <;> rfl

theorem flag_some {arg : Text} {st' : Settings} (h : flag st arg = some st') :
    ∃ opt : Opt, opt.args = [arg] ∧ opt.apply st = st' := by
  unfold flag at h
  split at h
  · rename_i harg
    exact ⟨.yes, by rw [harg]; rfl, Option.some.inj h⟩
  split at h
  · rename_i harg
    exact ⟨.verifyAndroid, by rw [harg]; rfl, Option.some.inj h⟩
  split at h
  · rename_i harg
    rcases harg with harg | harg
    · exact ⟨.noAndroid, by rw [harg]; rfl, Option.some.inj h⟩
    · exact ⟨.localOnly, by rw [harg]; rfl, Option.some.inj h⟩
  · cases h

theorem valued_some {arg value : Text} {st' : Settings} (h : valued st arg value = some st') :
    ∃ opt : Opt, opt.args = [arg, value] ∧ opt.apply st = st' := by
  unfold valued at h
  split at h
  · rename_i harg
    exact ⟨.adbHost value, by rw [harg]; rfl, Option.some.inj h⟩
  split at h
  · rename_i harg
    exact ⟨.adbPort value, by rw [harg]; rfl, Option.some.inj h⟩
  split at h
  · rename_i harg
    exact ⟨.apk value, by rw [harg]; rfl, Option.some.inj h⟩
  · cases h

theorem other_ne (arg : Text) (st : Settings) : other arg ≠ .accepted st := by
  unfold other
  split <;> nofun

/-- The arguments that `main` accepts are those of options. -/
theorem exists_opts {st' : Settings} (h : parseArgs st args = .accepted st') :
    ∃ opts : List Opt, args = opts.flatMap Opt.args ∧ opts.foldl Opt.apply st = st' := by
  fun_induction parseArgs st args with
  | case1 st =>
    cases h
    exact ⟨[], rfl, rfl⟩
  | case2 st arg st₁ hflag =>
    cases h
    obtain ⟨opt, hargs, rfl⟩ := flag_some hflag
    exact ⟨[opt], by simp [hargs], rfl⟩
  | case3 => exact absurd h (other_ne _ _)
  | case4 st arg value args st₁ hflag ih =>
    obtain ⟨opts, hopts, hst⟩ := ih h
    obtain ⟨opt, hargs, rfl⟩ := flag_some hflag
    exact ⟨opt :: opts, by simp [hargs, hopts], hst⟩
  | case5 st arg value args _ st₁ hvalued ih =>
    obtain ⟨opts, hopts, hst⟩ := ih h
    obtain ⟨opt, hargs, rfl⟩ := valued_some hvalued
    exact ⟨opt :: opts, by simp [hargs, hopts], hst⟩
  | case6 => exact absurd h (other_ne _ _)

/-! ## With `--yes` -/

theorem foldl_assumeYes (opts : List Opt) (st : Settings) :
    (opts.foldl Opt.apply st).assumeYes = true ↔ st.assumeYes = true ∨ .yes ∈ opts := by
  induction opts generalizing st with
  | nil => simp
  | cons opt opts ih =>
    rw [List.foldl_cons, ih]
    cases opt <;> simp [Opt.apply]

theorem foldl_requested (opts : List Opt) (st : Settings) :
    (opts.foldl Opt.apply st).verifyAndroidRequested = true ↔
      st.verifyAndroidRequested = true ∨ .verifyAndroid ∈ opts := by
  induction opts generalizing st with
  | nil => simp
  | cons opt opts ih =>
    rw [List.foldl_cons, ih]
    cases opt <;> simp [Opt.apply]

theorem foldl_skip (opts : List Opt) (st : Settings) :
    (opts.foldl Opt.apply st).skipAndroid = true ↔
      st.skipAndroid = true ∨ .noAndroid ∈ opts ∨ .localOnly ∈ opts := by
  induction opts generalizing st with
  | nil => simp
  | cons opt opts ih =>
    rw [List.foldl_cons, ih]
    cases opt <;> simp [Opt.apply]

/-- The path of the last `--apk`. -/
def lastApk (opts : List Opt) : Text :=
  ((opts.filterMap Opt.path?).getLast?.map (snprintf pathMax)).getD []

theorem foldl_apkPath (opts : List Opt) (st : Settings) : (opts.foldl Opt.apply st).apkPath =
    ((opts.filterMap Opt.path?).getLast?.map (snprintf pathMax)).getD st.apkPath := by
  induction opts generalizing st with
  | nil => rfl
  | cons opt opts ih =>
    rw [List.foldl_cons, ih]
    cases opt with
    | apk path =>
      show _ = ((path :: opts.filterMap Opt.path?).getLast?.map (snprintf pathMax)).getD st.apkPath
      rw [List.getLast?_cons]
      cases (opts.filterMap Opt.path?).getLast? <;> rfl
    | _ => rfl

/-- With `--yes` these lead to `run_adb_verification`. -/
def Reached (opts : List Opt) (env : Env) : Prop :=
  (.verifyAndroid ∈ opts ∨ (.noAndroid ∉ opts ∧ .localOnly ∉ opts)) ∧ env.binderOk = true ∧
    env.adbFound = true ∧ env.apkFound (lastApk opts) = true

/-- With `--yes`, `ask_value` gives the default. -/
theorem verifyAndroid_yes (hyes : st.assumeYes = true) (env : Env) (host port : Text) :
    verifyAndroid st env = .verify host port ↔
      ((st.verifyAndroidRequested = true ∨ st.skipAndroid = false) ∧ env.binderOk = true ∧
        env.adbFound = true ∧ env.apkFound st.apkPath = true) ∧
      host = defaultAdbHost ∧ port = defaultAdbPort := by
  have hhost : askValue defaultAdbHost adbHostSize true = fun stdin => (defaultAdbHost, stdin) := rfl
  have hport : askValue defaultAdbPort adbPortSize true = fun stdin => (defaultAdbPort, stdin) := rfl
  unfold verifyAndroid
  rw [hyes, hhost, hport]
  cases st.verifyAndroidRequested <;> cases st.skipAndroid <;> cases env.binderOk <;>
    cases env.adbFound <;> cases env.apkFound st.apkPath <;>
    simp [askYesNo, eq_comm (a := host), eq_comm (a := port)]

theorem main_yes (hyes : .yes ∈ opts) (env : Env) (host port : Text) :
    main (opts.flatMap Opt.args) env = .verify host port ↔
      Reached opts env ∧ host = defaultAdbHost ∧ port = defaultAdbPort := by
  have hst : (opts.foldl Opt.apply .start).assumeYes = true := (foldl_assumeYes ..).mpr (.inr hyes)
  rw [main, parseArgs_args]
  dsimp only
  rw [verifyAndroid_yes hst, foldl_requested, foldl_apkPath, ← Bool.not_eq_true, foldl_skip, Reached]
  simp [Settings.start, lastApk]

/-- Arguments that `main` accepts, with `--yes`, are those of options. Whenever `run_adb_verification`
is reached it has the host and the port of the last options, or the defaults if there is none, if and
only if it is not reached or these are the defaults. -/
theorem main_connects_iff (args : List Text) (env : Env) (hargs : parseArgs .start args = .accepted st)
    (hyes : st.assumeYes = true) :
    (∃ opts : List Opt, args = opts.flatMap Opt.args) ∧
    ∀ opts : List Opt, args = opts.flatMap Opt.args →
      ((∀ host port, main args env = .verify host port →
        host = lastHost opts ∧ port = lastPort opts) ↔
      (Reached opts env → lastHost opts = defaultAdbHost ∧ lastPort opts = defaultAdbPort)) := by
  obtain ⟨opts, rfl, -⟩ := exists_opts hargs
  refine ⟨⟨opts, rfl⟩, fun opts' heq => ?_⟩
  rw [heq, parseArgs_args] at hargs
  cases hargs
  have hyes' : .yes ∈ opts' := ((foldl_assumeYes ..).mp hyes).resolve_left (by decide)
  have hmain := main_yes hyes' env
  rw [heq]
  constructor
  · intro h hreached
    obtain ⟨hhost, hport⟩ := h _ _ ((hmain _ _).mpr ⟨hreached, rfl, rfl⟩)
    exact ⟨hhost.symm, hport.symm⟩
  · intro h host port hrun
    obtain ⟨hreached, rfl, rfl⟩ := (hmain host port).mp hrun
    exact ⟨(h hreached).1.symm, (h hreached).2.symm⟩

/-- Everything is found, and nothing is typed. -/
def ready : Env := ⟨0, true, [], true, fun _ => true⟩

theorem main_connects_default :
    main ["--yes".toList, "--adb-port".toList, "5555".toList] ready =
        .verify defaultAdbHost defaultAdbPort ∧
      ∀ host port, main ["--yes".toList, "--adb-port".toList, "5555".toList] ready =
        .verify host port → host = "localhost".toList ∧ port = "5555".toList :=
  ⟨by decide +kernel,
    ((main_connects_iff ["--yes".toList, "--adb-port".toList, "5555".toList] ready rfl rfl).2
      [.yes, .adbPort "5555".toList] rfl).mpr fun _ => ⟨by decide, by decide⟩⟩

/-- The options name another host, and `localhost` is connected. -/
theorem host_ignored : main ["--yes".toList, "--adb-host".toList, "10.0.0.2".toList] ready =
      .verify "localhost".toList "5555".toList ∧
    ¬ ∀ (opts : List Opt) (env : Env), .yes ∈ opts → ∀ host port,
      main (opts.flatMap Opt.args) env = .verify host port →
        host = lastHost opts ∧ port = lastPort opts := by
  have hrun : main ["--yes".toList, "--adb-host".toList, "10.0.0.2".toList] ready =
      .verify "localhost".toList "5555".toList := by decide +kernel
  refine ⟨hrun, fun h => ?_⟩
  have := h [.yes, .adbHost "10.0.0.2".toList] ready (by decide) _ _ hrun
  exact absurd this.1 (by decide)

end Redroid.HostMain
