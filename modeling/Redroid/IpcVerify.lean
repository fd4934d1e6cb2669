import Mathlib.Algebra.Group.Nat.Defs
import Mathlib.Data.List.Infix

/-!
# The verdict of `ipcverify` over adb (`ipcverify/src`, `ipcverify/app`)

On the device the checks are written into a report: one line for each, and a summary. The lines go
to the Android log, and the host program looks for the words of a failed check in what it captures
from the log.

* `Report`, `logCheck`, `ipcverifyRunLocalChecks`: the report and its buffer.
* `logReportLines`: the lines of the report as they go to the log, cut to the line buffer.
* `hasFailure`: the verdict of `run_adb_verification`.
* `hasFailure_agrees_iff`: it agrees with `ipcverify_has_failures` exactly if a check failed, since
  the summary has the words in every report; or if none did and the log was not captured.

Texts are lists of characters, without the terminating NUL.
-/

namespace Redroid.IpcVerify

/-! ## The report -/

/-- `enum ipcverify_status`. -/
inductive Status where
  | pass | fail | skip | notPresent
  deriving DecidableEq, Repr

/-- `ipcverify_status_text`. -/
def ipcverifyStatusText : Status → List Char
  | .pass => "passed".toList
  | .fail => "failed".toList
  | .skip => "skipped".toList
  | .notPresent => "not present".toList

/-- `sizeof(report->text)`. -/
def reportSize : Nat := 32768

/-- `struct ipcverify_report`. -/
structure Report where
  text : List Char
  used : Nat
  passCount : Nat
  failCount : Nat
  skipCount : Nat
  notPresentCount : Nat
  deriving DecidableEq, Repr

/-- `ipcverify_report_init`. -/
def ipcverifyReportInit : Report := ⟨[], 0, 0, 0, 0, 0⟩

/-- `ipcverify_report_append` of the formatted text `s`: `vsnprintf` cuts it to the room left. -/
def Report.append (report : Report) (s : List Char) : Report :=
  if reportSize ≤ report.used then report
  else
    { report with
      text := report.text ++ s.take (reportSize - report.used - 1)
      used := if reportSize - report.used ≤ s.length then reportSize - 1
        else report.used + s.length }

/-- What one call of `ipcverify_log_check` is given. -/
structure Check where
  label : List Char
  status : Status
  detail : List Char
  deriving DecidableEq, Repr

/-- `ipcverify_log_check`. -/
def Report.logCheck (report : Report) (check : Check) : Report :=
  let report := report.append (check.label ++ "... ".toList ++ ipcverifyStatusText check.status)
  let report := if check.detail = [] then report
    else report.append (" (".toList ++ check.detail ++ ")".toList)
  let report := report.append "\n".toList
  match check.status with
  | .pass => { report with passCount := report.passCount + 1 }
  | .fail => { report with failCount := report.failCount + 1 }
  | .skip => { report with skipCount := report.skipCount + 1 }
  | .notPresent => { report with notPresentCount := report.notPresentCount + 1 }

/-- `"%d"`. -/
def decimal (n : Nat) : List Char := Nat.toDigits 10 n

/-- The line of the summary. -/
def summaryLine (report : Report) : List Char :=
  "summary: ".toList ++ decimal report.passCount ++ " passed, ".toList ++
    decimal report.failCount ++ " failed, ".toList ++ decimal report.skipCount ++
    " skipped, ".toList ++ decimal report.notPresentCount ++ " not present".toList

/-- `ipcverify_run_local_checks`: `runtime` are the checks of `append_runtime_checks`, `checks` those
of binder, ashmem and memfd. -/
def ipcverifyRunLocalChecks (runtime checks : List Check) : Report :=
  let report := ipcverifyReportInit.append "IPC Verification\n\n".toList
  let report := (runtime.foldl Report.logCheck report).append "\n".toList
  let report := checks.foldl Report.logCheck report
  report.append ("\n".toList ++ summaryLine report ++ "\n".toList)

/-- `ipcverify_has_failures`. -/
def ipcverifyHasFailures (report : Report) : Bool :=
  decide (0 < report.failCount) || decide (0 < report.notPresentCount)

/-! ## The log -/

/-- `sizeof(line)` in `log_report_lines`. -/
def lineSize : Nat := 512

/-- `log_report_lines`: the lines that go to the log. `line` is what was read since the last
newline. An empty line is left out, and one without a newline at its end is not cut. -/
def logReportLines (line : List Char) : List Char → List (List Char)
  | [] => if line = [] then [] else [line]
  | c :: text =>
    if c = '\n' then
      (if line = [] then [] else [line.take (lineSize - 1)]) ++ logReportLines [] text
    else logReportLines (line ++ [c]) text

/-- `strstr(haystack, needle)` finds `needle`. -/
def strstr (haystack needle : List Char) : Bool := decide (needle <:+: haystack)

/-- The flag `has_failure` of `run_adb_verification`: `rc` is what `adb logcat` returned, `logcat`
what it wrote. -/
def hasFailure (rc : Int) (logcat : List Char) : Bool :=
  rc == 0 && !logcat.isEmpty &&
    (strstr logcat "failed".toList || strstr logcat "not present".toList)

/-! ## The text of the report -/

/-- The text that one check adds. -/
def checkText (check : Check) : List Char :=
  check.label ++ "... ".toList ++ ipcverifyStatusText check.status ++
    (if check.detail = [] then [] else " (".toList ++ check.detail ++ ")".toList) ++ "\n".toList

/-- The report without the size of its buffer, up to the summary. -/
def reportFront (runtime checks : List Check) : List Char :=
  "IPC Verification\n\n".toList ++ runtime.flatMap checkText ++ "\n".toList ++
    checks.flatMap checkText

/-- The whole report without the size of its buffer. -/
def reportText (runtime checks : List Check) : List Char :=
  reportFront runtime checks ++
    ("\n".toList ++ summaryLine (ipcverifyRunLocalChecks runtime checks) ++ "\n".toList)

/-- The report fits into its buffer. -/
def Fits (runtime checks : List Check) : Prop := (reportText runtime checks).length < reportSize

instance (runtime checks : List Check) : Decidable (Fits runtime checks) :=
  inferInstanceAs (Decidable (_ < _))

/-- The report has the text `t`, as far as its buffer goes. -/
structure Holds (report : Report) (t : List Char) : Prop where
  text : report.text = t.take (reportSize - 1)
  used : report.used = report.text.length

section Text

variable {report : Report} {t : List Char} {runtime checks : List Check} {check : Check}

theorem Holds.append (h : Holds report t) (s : List Char) : Holds (report.append s) (t ++ s) := by
  have hlen : report.used = min (reportSize - 1) t.length := by
    rw [h.used, h.text, List.length_take]
  have hlt : ¬ reportSize ≤ report.used := by
    rw [hlen]
    unfold reportSize
    omega
  have htext : report.text ++ s.take (reportSize - report.used - 1) =
      (t ++ s).take (reportSize - 1) := by
    rw [List.take_append, h.text, hlen]
    congr 2
    unfold reportSize
    omega
  unfold Report.append
  rw [if_neg hlt]
  refine ⟨htext, ?_⟩
  show (if reportSize - report.used ≤ s.length then _ else _) = (report.text ++ _).length
  rw [htext, List.length_take, List.length_append]
  unfold reportSize at hlen ⊢
  split <;> omega

theorem Holds.logCheck (h : Holds report t) (check : Check) :
    Holds (report.logCheck check) (t ++ checkText check) := by
  obtain ⟨label, status, detail⟩ := check
  have hline := h.append (label ++ "... ".toList ++ ipcverifyStatusText status)
  have hdetail := hline.append (" (".toList ++ detail ++ ")".toList)
  have hnl := hline.append "\n".toList
  have hdnl := hdetail.append "\n".toList
  unfold checkText Report.logCheck
  by_cases hd : detail = []
  · simp only [if_pos hd, List.append_nil, ← List.append_assoc] at hnl ⊢
    cases status <;> exact ⟨hnl.text, hnl.used⟩
  · simp only [if_neg hd, ← List.append_assoc] at hdnl ⊢
    cases status <;> exact ⟨hdnl.text, hdnl.used⟩

theorem Holds.foldl (checks : List Check) : ∀ {report : Report} {t : List Char}, Holds report t →
    Holds (checks.foldl Report.logCheck report) (t ++ checks.flatMap checkText) := by
  induction checks with
  | nil => intro report t h; simpa using h
  | cons c cs ih =>
    intro report t h
    rw [List.foldl_cons, List.flatMap_cons, ← List.append_assoc]
    exact ih (h.logCheck c)

/-- The counter of one status. -/
def Report.count (report : Report) : Status → Nat
  | .pass => report.passCount
  | .fail => report.failCount
  | .skip => report.skipCount
  | .notPresent => report.notPresentCount

@[simp] theorem count_append (s : List Char) (st : Status) :
    (report.append s).count st = report.count st := by
  unfold Report.append
  split <;> cases st <;> rfl

theorem count_logCheck (check : Check) (st : Status) :
    (report.logCheck check).count st = report.count st + if check.status = st then 1 else 0 := by
  have hkeep : ∀ r : Report, r.count st = report.count st →
      (match check.status with
        | .pass => { r with passCount := r.passCount + 1 }
        | .fail => { r with failCount := r.failCount + 1 }
        | .skip => { r with skipCount := r.skipCount + 1 }
        | .notPresent => { r with notPresentCount := r.notPresentCount + 1 }).count st =
        report.count st + if check.status = st then 1 else 0 := by
    intro r hr
    rw [← hr]
    cases check.status <;> cases st <;> rfl
  unfold Report.logCheck
  apply hkeep
  split <;> simp

theorem count_foldl (st : Status) (checks : List Check) : ∀ report : Report,
    (checks.foldl Report.logCheck report).count st =
      report.count st + checks.countP (·.status = st) := by
  induction checks with
  | nil => intro report; rfl
  | cons c cs ih =>
    intro report
    rw [List.foldl_cons, ih, count_logCheck, List.countP_cons]
    simp only [decide_eq_true_eq]
    omega

theorem count_runLocalChecks (runtime checks : List Check) (st : Status) :
    (ipcverifyRunLocalChecks runtime checks).count st =
      (runtime ++ checks).countP (·.status = st) := by
  have h0 : ipcverifyReportInit.count st = 0 := by cases st <;> rfl
  unfold ipcverifyRunLocalChecks
  simp only [count_append, count_foldl, h0, List.countP_append, Nat.zero_add]

/-- `ipcverify_has_failures` is set exactly if a check failed or was not present. -/
theorem hasFailures_iff (runtime checks : List Check) :
    ipcverifyHasFailures (ipcverifyRunLocalChecks runtime checks) = true ↔
      ∃ c ∈ runtime ++ checks, c.status = .fail ∨ c.status = .notPresent := by
  have hf := count_runLocalChecks runtime checks .fail
  have hn := count_runLocalChecks runtime checks .notPresent
  simp only [Report.count] at hf hn
  unfold ipcverifyHasFailures
  rw [hf, hn, Bool.or_eq_true, decide_eq_true_eq, decide_eq_true_eq, List.countP_pos_iff,
    List.countP_pos_iff]
  simp only [decide_eq_true_eq]
  constructor
  · rintro (⟨c, hc, hst⟩ | ⟨c, hc, hst⟩)
    · exact ⟨c, hc, .inl hst⟩
    · exact ⟨c, hc, .inr hst⟩
  · rintro ⟨c, hc, hst | hst⟩
    · exact .inl ⟨c, hc, hst⟩
    · exact .inr ⟨c, hc, hst⟩

theorem summaryLine_append (s : List Char) :
    summaryLine (report.append s) = summaryLine report := by
  have h : ∀ st, (report.append s).count st = report.count st := count_append s
  unfold summaryLine
  rw [show (report.append s).passCount = report.passCount from h .pass,
    show (report.append s).failCount = report.failCount from h .fail,
    show (report.append s).skipCount = report.skipCount from h .skip,
    show (report.append s).notPresentCount = report.notPresentCount from h .notPresent]

/-- The buffer has the text of the report, as far as it goes. -/
theorem runLocalChecks_text (runtime checks : List Check) :
    (ipcverifyRunLocalChecks runtime checks).text =
      (reportText runtime checks).take (reportSize - 1) := by
  have h0 : Holds ipcverifyReportInit [] := ⟨rfl, rfl⟩
  have hrun := (Holds.foldl runtime (h0.append "IPC Verification\n\n".toList)).append "\n".toList
  have hfront := Holds.foldl checks hrun
  unfold reportText ipcverifyRunLocalChecks
  rw [summaryLine_append]
  exact (hfront.append _).text

theorem Fits.text (h : Fits runtime checks) :
    (ipcverifyRunLocalChecks runtime checks).text = reportText runtime checks := by
  rw [runLocalChecks_text, List.take_of_length_le]
  unfold Fits at h
  omega

end Text

/-! ## The summary in the log -/

section Log

variable {runtime checks : List Check}

theorem logReportLines_line {s : List Char} (hs : '\n' ∉ s) (line text : List Char) :
    logReportLines line (s ++ text) = logReportLines (line ++ s) text := by
  induction s generalizing line with
  | nil => simp
  | cons c s ih =>
    rw [List.mem_cons, not_or] at hs
    rw [List.cons_append, logReportLines, if_neg (Ne.symm hs.1), ih hs.2, List.append_assoc]
    rfl

/-- What follows a newline is printed as if it stood alone. -/
theorem logReportLines_suffix (front text : List Char) : ∀ line : List Char,
    logReportLines [] text <:+ logReportLines line (front ++ '\n' :: text) := by
  induction front with
  | nil => intro line; exact List.suffix_append _ _
  | cons c front ih =>
    intro line
    rw [List.cons_append, logReportLines]
    split
    · exact (ih []).trans (List.suffix_append _ _)
    · exact ih _

theorem newline_not_mem_decimal (n : Nat) : '\n' ∉ decimal n := by
  intro h
  have hdigit := Nat.isDigit_of_mem_toDigits (by decide) (by decide) h
  exact absurd hdigit (by decide)

theorem newline_not_mem_summaryLine (report : Report) : '\n' ∉ summaryLine report := by
  unfold summaryLine
  simp only [List.mem_append, not_or]
  refine ⟨⟨⟨⟨⟨⟨⟨⟨?_, ?_⟩, ?_⟩, ?_⟩, ?_⟩, ?_⟩, ?_⟩, ?_⟩, ?_⟩ <;>
    first | exact newline_not_mem_decimal _ | decide

theorem failed_infix_summaryLine (report : Report) :
    "failed".toList <:+: summaryLine report := by
  refine ⟨"summary: ".toList ++ decimal report.passCount ++ " passed, ".toList ++
    decimal report.failCount ++ " ".toList, ", ".toList ++ decimal report.skipCount ++
    " skipped, ".toList ++ decimal report.notPresentCount ++ " not present".toList, ?_⟩
  unfold summaryLine
  simp only [List.append_assoc]
  rfl

theorem length_le_flatMap_checkText (checks : List Check) :
    checks.length ≤ (checks.flatMap checkText).length := by
  induction checks with
  | nil => exact Nat.le_refl _
  | cons c cs ih =>
    have hpos : 0 < (checkText c).length := by
      unfold checkText
      rw [List.length_append]
      exact Nat.lt_of_lt_of_le Nat.zero_lt_one (Nat.le_add_left _ _)
    rw [List.flatMap_cons, List.length_append, List.length_cons]
    omega

theorem Fits.count_lt (h : Fits runtime checks) (st : Status) :
    (ipcverifyRunLocalChecks runtime checks).count st < 10 ^ 5 := by
  have hle := List.countP_le_length (p := fun c : Check => decide (c.status = st))
    (l := runtime ++ checks)
  have hr := length_le_flatMap_checkText runtime
  have hc := length_le_flatMap_checkText checks
  unfold Fits reportText reportFront reportSize at h
  rw [count_runLocalChecks]
  simp only [List.length_append] at hle h
  omega

theorem length_summaryLine {report : Report} (h : ∀ st, report.count st < 10 ^ 5) :
    (summaryLine report).length ≤ lineSize - 1 := by
  have hd : ∀ st, (decimal (report.count st)).length ≤ 5 :=
    fun st => (Nat.length_toDigits_le_iff (by decide) (by decide)).mpr (h st)
  have hp := hd .pass
  have hf := hd .fail
  have hs := hd .skip
  have hn := hd .notPresent
  simp only [Report.count] at hp hf hs hn
  unfold summaryLine
  simp only [List.length_append]
  have hwords : "summary: ".toList.length + " passed, ".toList.length + " failed, ".toList.length +
      " skipped, ".toList.length + " not present".toList.length = 49 := by decide
  unfold lineSize
  omega

/-- The summary is one of the lines that go to the log. -/
theorem Fits.summaryLine_mem (h : Fits runtime checks) :
    summaryLine (ipcverifyRunLocalChecks runtime checks) ∈
      logReportLines [] (ipcverifyRunLocalChecks runtime checks).text := by
  have hne : summaryLine (ipcverifyRunLocalChecks runtime checks) ≠ [] := by
    intro hnil
    have := failed_infix_summaryLine (ipcverifyRunLocalChecks runtime checks)
    rw [hnil] at this
    exact absurd (List.eq_nil_of_infix_nil this) (by decide)
  rw [h.text]
  refine (logReportLines_suffix (reportFront runtime checks)
    (summaryLine (ipcverifyRunLocalChecks runtime checks) ++ "\n".toList) []).subset ?_
  rw [logReportLines_line (newline_not_mem_summaryLine _), List.nil_append]
  show _ ∈ logReportLines _ ['\n']
  rw [logReportLines, if_pos rfl, if_neg hne, List.take_of_length_le (length_summaryLine h.count_lt)]
  exact List.mem_append_left _ (List.mem_singleton.mpr rfl)

/-- Every report that fits sets the flag: its summary has the word, with whatever count. -/
theorem Fits.hasFailure {logcat : List Char} (h : Fits runtime checks)
    (hlog : ∀ l ∈ logReportLines [] (ipcverifyRunLocalChecks runtime checks).text, l <:+: logcat) :
    hasFailure 0 logcat = true := by
  have hin : "failed".toList <:+: logcat :=
    (failed_infix_summaryLine _).trans (hlog _ h.summaryLine_mem)
  have hne : logcat ≠ [] := by
    rintro rfl
    exact absurd (List.eq_nil_of_infix_nil hin) (by decide)
  have hstr : strstr logcat "failed".toList = true := decide_eq_true hin
  unfold IpcVerify.hasFailure
  rw [hstr, List.isEmpty_eq_false_iff.mpr hne]
  rfl

/-- What `adb logcat` wrote is not looked at if it failed. -/
theorem hasFailure_of_rc {rc : Int} (h : rc ≠ 0) (logcat : List Char) : hasFailure rc logcat = false := by
  simp [hasFailure, h]

/-- The verdict over adb agrees with the one on the device exactly if a check failed or was not present
where `adb logcat` succeeds, and none where it fails. -/
theorem hasFailure_agrees_iff {logcat : List Char} (rc : Int) (hfit : Fits runtime checks)
    (hlog : ∀ l ∈ logReportLines [] (ipcverifyRunLocalChecks runtime checks).text, l <:+: logcat) :
    (hasFailure rc logcat = true ↔
        ipcverifyHasFailures (ipcverifyRunLocalChecks runtime checks) = true) ↔
      (rc = 0 ↔ ∃ c ∈ runtime ++ checks, c.status = .fail ∨ c.status = .notPresent) := by
  rw [← hasFailures_iff]
  by_cases hrc : rc = 0
  · subst hrc
    rw [hfit.hasFailure hlog]
    simp only [true_iff]
  · rw [hasFailure_of_rc hrc]
    simp only [hrc, false_iff, Bool.false_eq_true]

/-- What the log shows of the lines: one after the other. -/
def logcatOf (lines : List (List Char)) : List Char := lines.flatMap (· ++ "\n".toList)

theorem infix_logcatOf {lines : List (List Char)} : ∀ l ∈ lines, l <:+: logcatOf lines := by
  intro l hl
  obtain ⟨front, back, rfl⟩ := List.append_of_mem hl
  refine ⟨logcatOf front, "\n".toList ++ logcatOf back, ?_⟩
  simp [logcatOf]

theorem hasFailure_agrees_notPresent :
    hasFailure 0 (logcatOf (logReportLines []
        (ipcverifyRunLocalChecks [] [⟨"checking binder".toList, .notPresent, []⟩]).text)) = true ↔
      ipcverifyHasFailures
        (ipcverifyRunLocalChecks [] [⟨"checking binder".toList, .notPresent, []⟩]) = true :=
  (hasFailure_agrees_iff 0 (by decide +kernel) infix_logcatOf).mpr
    (iff_of_true rfl ⟨_, List.mem_singleton.mpr rfl, .inr rfl⟩)

/-- The checks of `ipcverify_run_local_checks`: each of its 62 calls runs at most once, with a label
of the source and a text of `char detail[256]`. -/
structure Logged (runtime checks : List Check) : Prop where
  calls : (runtime ++ checks).length ≤ 62
  label : ∀ c ∈ runtime ++ checks, c.label.length ≤ 64
  detail : ∀ c ∈ runtime ++ checks, c.detail.length ≤ 255

theorem length_checkText {check : Check} (hl : check.label.length ≤ 64)
    (hd : check.detail.length ≤ 255) : (checkText check).length ≤ 338 := by
  have hst : (ipcverifyStatusText check.status).length ≤ 11 := by
    cases check.status <;> decide
  have hdet : (if check.detail = [] then [] else " (".toList ++ check.detail ++ ")".toList).length ≤
      258 := by
    split
    · exact Nat.zero_le _
    · simp only [List.length_append]
      have : " (".toList.length + ")".toList.length = 3 := by decide
      omega
  have hwords : "... ".toList.length + "\n".toList.length = 5 := by decide
  unfold checkText
  simp only [List.length_append]
  omega

theorem length_flatMap_checkText {l : List Check}
    (h : ∀ c ∈ l, c.label.length ≤ 64 ∧ c.detail.length ≤ 255) :
    (l.flatMap checkText).length ≤ 338 * l.length := by
  induction l with
  | nil => exact Nat.le_refl _
  | cons c cs ih =>
    have hc := h c List.mem_cons_self
    have hlen := length_checkText hc.1 hc.2
    have hcs := ih fun d hd => h d (List.mem_cons_of_mem _ hd)
    rw [List.flatMap_cons, List.length_append, List.length_cons]
    omega

/-- Every report of the program fits into its buffer. -/
theorem Logged.fits (h : Logged runtime checks) : Fits runtime checks := by
  have hr := length_flatMap_checkText fun c hc =>
    ⟨h.label c (List.mem_append_left checks hc), h.detail c (List.mem_append_left checks hc)⟩
  have hc := length_flatMap_checkText fun c hc =>
    ⟨h.label c (List.mem_append_right runtime hc), h.detail c (List.mem_append_right runtime hc)⟩
  have hcalls := h.calls
  have hlt : ∀ st, (ipcverifyRunLocalChecks runtime checks).count st < 10 ^ 5 := by
    intro st
    have hle := List.countP_le_length (p := fun c : Check => decide (c.status = st))
      (l := runtime ++ checks)
    rw [count_runLocalChecks]
    omega
  have hsum := length_summaryLine hlt
  have hwords : "IPC Verification\n\n".toList.length + "\n".toList.length = 19 := by decide
  unfold Fits reportText reportFront reportSize
  simp only [List.length_append] at hcalls ⊢
  unfold lineSize at hsum
  omega

/-- The runtime checks of a 64-bit device. -/
def passedRuntime : List Check :=
  [⟨"checking ABI correctness".toList, .pass,
      "compiled for arm64-v8a, pointer size=64-bit".toList⟩,
    ⟨"checking 32-bit vs 64-bit behavior".toList, .pass,
      "struct=24 bytes, pointer alignment=8 bytes".toList⟩,
    ⟨"checking native bridge translation".toList, .skip,
      "native bridge not active, abilist=arm64-v8a".toList⟩,
    ⟨"checking real app lifecycle".toList, .pass,
      "JNI checks were launched from the Android app entry point".toList⟩,
    ⟨"checking real performance".toList, .pass, "8 MiB native heap sweep in 1.25 ms".toList⟩,
    ⟨"checking native heap behavior".toList, .pass, "8 MiB native heap sweep in 1.25 ms".toList⟩,
    ⟨"checking GPU shim hooks".toList, .skip, "future EGL/Vulkan verification hook".toList⟩]

/-- The checks of a device with binder and ashmem. -/
def passedChecks : List Check :=
  [⟨"checking binder".toList, .pass, "protocol 8 via /dev/binder".toList⟩,
    ⟨"  checking allocate buffer".toList, .pass,
      "mmap/munmap succeeded via /dev/binder".toList⟩,
    ⟨"  checking allocate shrinker".toList, .pass,
      "madvise(MADV_DONTNEED) succeeded via /dev/binder".toList⟩,
    ⟨"  checking binder transaction limits".toList, .pass,
      "1 MiB binder map + thread limit ioctl succeeded".toList⟩,
    ⟨"  checking binder handle passing".toList, .skip,
      "service manager query unavailable in app sandbox".toList⟩,
    ⟨"checking ashmem".toList, .pass, "device is present".toList⟩,
    ⟨"  checking set size".toList, .pass, "ashmem size ioctl succeeded".toList⟩,
    ⟨"  checking mmap shared memory".toList, .pass, "shared mapping succeeded".toList⟩,
    ⟨"  checking pin and unpin".toList, .pass, "pin/unpin ioctls succeeded".toList⟩,
    ⟨"  checking ASharedMemory_create()".toList, .pass,
      "ASharedMemory_create + setProt + mmap succeeded".toList⟩,
    ⟨"  checking ASharedMemory_setProt()".toList, .pass,
      "ASharedMemory_create + setProt + mmap succeeded".toList⟩]

/-- A device where nothing failed is reported as failed. -/
theorem hasFailure_of_passed :
    Logged passedRuntime passedChecks ∧
      ipcverifyHasFailures (ipcverifyRunLocalChecks passedRuntime passedChecks) = false ∧
      hasFailure 0 (logcatOf (logReportLines []
        (ipcverifyRunLocalChecks passedRuntime passedChecks).text)) = true := by
  have hlogged : Logged passedRuntime passedChecks :=
    ⟨by decide, by decide +kernel, by decide +kernel⟩
  refine ⟨hlogged, ?_, hlogged.fits.hasFailure infix_logcatOf⟩
  rw [← Bool.not_eq_true, hasFailures_iff]
  decide +kernel

end Log

end Redroid.IpcVerify
