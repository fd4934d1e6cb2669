import Mathlib.Data.List.Nodup
import Mathlib.Logic.Function.Basic

/-!
# The transaction log

The last transactions, in a ring of 32 entries. `binder_transaction_log_add` hands out an entry, and
the transaction writes to it later on, also when other transactions have their entries already.

* `LogState` is the log, with the entries that the calls of `binder_transaction_log_add` have returned.
* `Filled`: what `cur` and `full` say after `n` calls.
* `binderTransactionLogShow_last`: `binder_transaction_log_show` prints the entries of the last calls.
-/

namespace Redroid.Binder.Log

/-- `struct binder_transaction_log_entry` -/
structure LogEntry where
  debugId : Int
  debugIdDone : Int
  callType : Int
  fromProc : Int
  fromThread : Int
  targetHandle : Int
  toProc : Int
  toThread : Int
  toNode : Int
  dataSize : Int
  offsetsSize : Int
  returnErrorLine : Int
  returnError : BitVec 32
  returnErrorParam : BitVec 32
  contextName : String
  deriving DecidableEq, Repr

/-- An entry after `memset`. -/
def LogEntry.zero : LogEntry := ⟨0, 0, 0, 0, 0, 0, 0, 0, 0, 0, 0, 0, 0, 0, ""⟩

/-- `ARRAY_SIZE(log->entry)` -/
def logSize : Nat := 32

/-- `struct binder_transaction_log` -/
structure TransactionLog where
  cur : BitVec 32
  full : Bool
  entry : Fin logSize → LogEntry

/-- The entry that the counter selects. -/
def slot (cur : BitVec 32) : Fin logSize := ⟨cur.toNat % logSize, Nat.mod_lt _ (by decide)⟩

/-- The log after `binder_init`. -/
def binderInit : TransactionLog where
  cur := ~~~0
  full := false
  entry := fun _ => .zero

/-- `binder_transaction_log_add`. An entry is its index. -/
def binderTransactionLogAdd (log : TransactionLog) : Fin logSize × TransactionLog :=
  let cur := log.cur + 1
  let full := if logSize ≤ cur.toNat then true else log.full
  let e := slot cur
  (e, ⟨cur, full, Function.update log.entry e .zero⟩)

/-- `print_binder_transaction_log_entry`, with no write to the entry in between. -/
def printBinderTransactionLogEntry (e : LogEntry) : String :=
  toString e.debugId ++ ": " ++
    (if e.callType = 2 then "reply" else if e.callType = 1 then "async" else "call ") ++
    " from " ++ toString e.fromProc ++ ":" ++ toString e.fromThread ++
    " to " ++ toString e.toProc ++ ":" ++ toString e.toThread ++
    " context " ++ e.contextName ++ " node " ++ toString e.toNode ++
    " handle " ++ toString e.targetHandle ++
    " size " ++ toString e.dataSize ++ ":" ++ toString e.offsetsSize ++
    " ret " ++ toString e.returnError.toInt ++ "/" ++ toString e.returnErrorParam.toInt ++
    " l=" ++ toString e.returnErrorLine ++
    (if e.debugIdDone ≠ 0 then "\n" else " (incomplete)\n")

/-- The loop of `binder_transaction_log_show`, with `count` rounds left. -/
def showLoop (log : TransactionLog) : Nat → BitVec 32 → String
  | 0, _ => ""
  | count + 1, cur =>
    printBinderTransactionLogEntry (log.entry (slot cur)) ++ showLoop log count (cur + 1)

/-- `binder_transaction_log_show` -/
def binderTransactionLogShow (log : TransactionLog) : String :=
  let count := log.cur + 1
  let cur := if count.toNat < logSize ∧ log.full = false then 0 else count % BitVec.ofNat 32 logSize
  let count := if logSize < count.toNat ∨ log.full = true then logSize else count.toNat
  showLoop log count cur

/-! ## Runs -/

/-- The log, and the entries that the calls of `binder_transaction_log_add` have returned, the first
one first. -/
structure LogState where
  log : TransactionLog
  calls : List (Fin logSize)

inductive LogOp where
  | add
  /-- The transaction of the call `k` writes to its entry. -/
  | write (k : Nat) (f : LogEntry → LogEntry)

namespace LogState

variable {s : LogState} {n : Nat}

def start : LogState := ⟨binderInit, []⟩

def step (s : LogState) : LogOp → LogState
  | .add => ⟨(binderTransactionLogAdd s.log).2, s.calls ++ [(binderTransactionLogAdd s.log).1]⟩
  | .write k f =>
    match s.calls[k]? with
    | none => s
    | some e => { s with log := { s.log with entry := Function.update s.log.entry e (f (s.log.entry e)) } }

def run (ops : List LogOp) : LogState := ops.foldl step start

/-- After `n` calls. -/
structure Filled (n : Nat) (s : LogState) : Prop where
  cur : s.log.cur + 1 = BitVec.ofNat 32 n
  full : s.log.full = decide (logSize < n)
  calls : s.calls = (List.range n).map fun k => slot (BitVec.ofNat 32 k)

theorem slot_ofNat (n : Nat) : (slot (BitVec.ofNat 32 n)).val = n % logSize := by
  show (BitVec.ofNat 32 n).toNat % logSize = n % logSize
  rw [BitVec.toNat_ofNat]
  exact Nat.mod_mod_of_dvd n (by decide)

theorem ofNat_succ (n : Nat) : BitVec.ofNat 32 n + 1 = BitVec.ofNat 32 (n + 1) :=
  (BitVec.ofNat_add n 1).symm

theorem Filled.add (h : Filled n s) : Filled (n + 1) (s.step .add) where
  cur := by
    rw [step, binderTransactionLogAdd, h.cur]
    exact ofNat_succ n
  full := by
    rw [step, binderTransactionLogAdd]
    simp only [h.cur, h.full, BitVec.toNat_ofNat]
    by_cases hn : logSize < n
    · simp [hn, Nat.lt_succ_of_lt hn]
    · have hmod : n % 2 ^ 32 = n := Nat.mod_eq_of_lt (by rw [logSize] at hn; omega)
      rw [hmod]
      by_cases hle : logSize ≤ n
      · rw [if_pos hle, decide_eq_true (Nat.lt_succ_of_le hle)]
      · rw [if_neg hle, decide_eq_false hn, decide_eq_false (by omega)]
  calls := by
    rw [step, binderTransactionLogAdd, h.calls, h.cur, List.range_succ, List.map_append]
    rfl

theorem Filled.write (h : Filled n s) (k : Nat) (f : LogEntry → LogEntry) :
    Filled n (s.step (.write k f)) := by
  rw [step]
  split
  · exact h
  · exact ⟨h.cur, h.full, h.calls⟩

theorem filled_run (ops : List LogOp) : Filled (run ops).calls.length (run ops) := by
  have hstep (ops : List LogOp) : ∀ s : LogState, Filled s.calls.length s →
      Filled (ops.foldl step s).calls.length (ops.foldl step s) := by
    induction ops with
    | nil => exact fun _ h => h
    | cons op ops ih =>
      intro s h
      refine ih _ ?_
      cases op with
      | add =>
        have hadd := h.add
        rwa [step, List.length_append]
      | write k f =>
        have hw := h.write k f
        have hlen : (s.step (.write k f)).calls = s.calls := by
          rw [step]
          split <;> rfl
        rwa [hlen]
  exact hstep ops start ⟨rfl, rfl, rfl⟩

/-! ## What is shown -/

theorem slot_congr {c k : Nat} (h : c % logSize = k % logSize) :
    slot (BitVec.ofNat 32 c) = slot (BitVec.ofNat 32 k) :=
  Fin.ext (by rw [slot_ofNat, slot_ofNat, h])

theorem showLoop_eq (log : TransactionLog) (count : Nat) {c k : Nat} (h : c % logSize = k % logSize) :
    showLoop log count (BitVec.ofNat 32 c) =
      String.join ((List.range' k count).map fun i =>
        printBinderTransactionLogEntry (log.entry (slot (BitVec.ofNat 32 i)))) := by
  induction count generalizing c k with
  | zero => rfl
  | succ count ih =>
    have hnext : (c + 1) % logSize = (k + 1) % logSize := by rw [Nat.add_mod, h, ← Nat.add_mod]
    rw [showLoop, List.range'_succ, List.map_cons, String.join_cons, ← ih hnext, ofNat_succ,
      slot_congr h]

/-- The loop starts at the oldest of the last calls. -/
theorem Filled.show (h : Filled n s) : binderTransactionLogShow s.log = String.join
    ((List.range' (n - logSize) (min n logSize)).map fun k =>
      printBinderTransactionLogEntry (s.log.entry (slot (BitVec.ofNat 32 k)))) := by
  rw [binderTransactionLogShow]
  simp only [h.cur, h.full, decide_eq_true_eq, decide_eq_false_iff_not, BitVec.toNat_ofNat]
  by_cases hn : logSize < n
  · have hstart : (if n % 2 ^ 32 < logSize ∧ ¬ logSize < n then (0 : BitVec 32)
        else BitVec.ofNat 32 n % BitVec.ofNat 32 logSize) = BitVec.ofNat 32 (n % logSize) := by
      rw [if_neg fun hc => hc.2 hn]
      apply BitVec.eq_of_toNat_eq
      rw [BitVec.toNat_umod]
      simp only [BitVec.toNat_ofNat, logSize, Nat.reducePow, Nat.reduceMod]
      omega
    rw [hstart, if_pos (.inr hn), Nat.min_eq_right (Nat.le_of_lt hn)]
    exact showLoop_eq _ _ (by rw [logSize] at hn ⊢; omega)
  · have hlt : n % 2 ^ 32 = n := Nat.mod_eq_of_lt (by rw [logSize] at hn; omega)
    have hstart : (if n < logSize ∧ ¬ logSize < n then (0 : BitVec 32)
        else BitVec.ofNat 32 n % BitVec.ofNat 32 logSize) = BitVec.ofNat 32 0 := by
      split
      · rfl
      · have : n = logSize := by omega
        rw [this]
        rfl
    rw [hlt, hstart, if_neg (not_or.mpr ⟨hn, hn⟩), Nat.min_eq_left (Nat.le_of_not_lt hn)]
    exact showLoop_eq _ _ (by rw [logSize] at hn ⊢; omega)

theorem Filled.last (h : Filled n s) : s.calls.drop (s.calls.length - logSize) =
    (List.range' (n - logSize) (min n logSize)).map fun k => slot (BitVec.ofNat 32 k) := by
  have hlen : s.calls.length = n := by rw [h.calls, List.length_map, List.length_range]
  rw [hlen, h.calls, ← List.map_drop, List.range_eq_range', List.drop_range']
  congr 2
  · omega
  · rw [logSize]
    omega

theorem Filled.last_nodup (h : Filled n s) :
    (s.calls.drop (s.calls.length - logSize)).Nodup := by
  rw [h.last]
  refine List.Nodup.map_on (fun i hi k hk heq => ?_) List.nodup_range'
  have hmod := congrArg Fin.val heq
  rw [slot_ofNat, slot_ofNat] at hmod
  have hi := List.mem_range'_1.mp hi
  have hk := List.mem_range'_1.mp hk
  rw [logSize] at hi hk hmod
  omega

/-! ## The history -/

/-- The entries of all calls, as if each of them had memory of its own. -/
def histStep (hist : List LogEntry) : LogOp → List LogEntry
  | .add => hist ++ [.zero]
  | .write k f => hist.modify k f

def history (ops : List LogOp) : List LogEntry := ops.foldl histStep []

/-- After `n` calls, no transaction writes to an entry that another one has got since. -/
def Fresh : Nat → List LogOp → Prop
  | _, [] => True
  | n, .add :: ops => Fresh (n + 1) ops
  | n, .write k _ :: ops => n ≤ k + logSize ∧ Fresh n ops

/-- The ring has the last entries of the history. -/
structure Latest (hist : List LogEntry) (s : LogState) : Prop where
  filled : Filled hist.length s
  entry : ∀ k e, hist[k]? = some e → hist.length ≤ k + logSize →
    s.log.entry (slot (BitVec.ofNat 32 k)) = e

variable {hist : List LogEntry}

/-- The entries of the last 32 calls are different. -/
theorem slot_ne {j k : Nat} (hlt : j < k) (hle : k < j + logSize) :
    slot (BitVec.ofNat 32 j) ≠ slot (BitVec.ofNat 32 k) := fun heq => by
  have hmod := congrArg Fin.val heq
  rw [slot_ofNat, slot_ofNat, logSize] at hmod
  rw [logSize] at hle
  omega

theorem Latest.add (h : Latest hist s) : Latest (histStep hist .add) (s.step .add) where
  filled := by
    have := h.filled.add
    rwa [histStep, List.length_append]
  entry k e hk hlen := by
    rw [histStep, List.length_append, List.length_singleton] at hlen
    have hentry : (s.step .add).log.entry =
        Function.update s.log.entry (slot (BitVec.ofNat 32 hist.length)) .zero := by
      rw [step, binderTransactionLogAdd, h.filled.cur]
    rw [hentry]
    rcases Nat.lt_trichotomy k hist.length with hlt | rfl | hlt
    · rw [histStep, List.getElem?_append_left hlt] at hk
      rw [Function.update_of_ne (slot_ne hlt (by omega))]
      exact h.entry k e hk (by omega)
    · rw [histStep, List.getElem?_concat_length] at hk
      rw [Function.update_self]
      exact Option.some.inj hk
    · rw [histStep, List.getElem?_eq_none (by simp; omega)] at hk
      cases hk

theorem Latest.write (h : Latest hist s) {k : Nat} (f : LogEntry → LogEntry)
    (hk : hist.length ≤ k + logSize) : Latest (histStep hist (.write k f)) (s.step (.write k f)) where
  filled := by
    rw [histStep, List.length_modify]
    exact h.filled.write k f
  entry j e hj hlen := by
    rw [histStep, List.length_modify] at hlen
    rw [histStep, List.getElem?_modify] at hj
    have hcalls : s.calls[k]? = if k < hist.length then some (slot (BitVec.ofNat 32 k)) else none := by
      rw [h.filled.calls, List.getElem?_map]
      split
      · rename_i hlt
        rw [List.getElem?_range hlt]
        rfl
      · rename_i hge
        rw [List.getElem?_eq_none (by simpa using hge)]
        rfl
    obtain ⟨e', he', rfl⟩ := Option.map_eq_some_iff.mp hj
    have hjlt := (List.getElem?_eq_some_iff.mp he').1
    have hold := h.entry j e' he' hlen
    rw [step, hcalls]
    by_cases hkl : k < hist.length
    · rw [if_pos hkl]
      by_cases heq : k = j
      · subst heq
        simp only [if_true, Function.update_self, hold]
      · have hne : slot (BitVec.ofNat 32 j) ≠ slot (BitVec.ofNat 32 k) := by
          rcases Nat.lt_or_gt_of_ne heq with hlt | hlt
          · exact (slot_ne hlt (by omega)).symm
          · exact slot_ne hlt (by omega)
        simp only [if_neg heq, Function.update_of_ne hne, hold]
    · rw [if_neg hkl, if_neg (by omega)]
      exact hold

theorem latest_run (ops : List LogOp) (hfresh : Fresh 0 ops) : Latest (history ops) (run ops) := by
  have hstep (ops : List LogOp) : ∀ hist s, Latest hist s → Fresh hist.length ops →
      Latest (ops.foldl histStep hist) (ops.foldl step s) := by
    induction ops with
    | nil => exact fun _ _ h _ => h
    | cons op ops ih =>
      intro hist s h hfresh
      cases op with
      | add =>
        have hlen : (histStep hist .add).length = hist.length + 1 := List.length_append
        exact ih _ _ h.add (hlen ▸ hfresh)
      | write k f =>
        have hlen : (histStep hist (.write k f)).length = hist.length := List.length_modify ..
        exact ih _ _ (h.write f hfresh.1) (hlen ▸ hfresh.2)
  have hstart : Latest [] start := ⟨filled_run [], fun k e hk => by cases hk⟩
  exact hstep ops [] start hstart hfresh

/-- After any number of calls, `binder_transaction_log_show` prints the entries that the last 32 of them
have returned, or those of all calls if they are fewer, the oldest one first and each of them once.
As long as no transaction writes to an entry that another one has got since, these are the last entries
of the history. -/
theorem binderTransactionLogShow_last (ops : List LogOp) :
    ((run ops).calls.drop ((run ops).calls.length - logSize)).Nodup ∧
    binderTransactionLogShow (run ops).log =
      String.join (((run ops).calls.drop ((run ops).calls.length - logSize)).map fun e =>
        printBinderTransactionLogEntry ((run ops).log.entry e)) ∧
    (Fresh 0 ops → binderTransactionLogShow (run ops).log =
      String.join (((history ops).drop ((history ops).length - logSize)).map
        printBinderTransactionLogEntry)) := by
  have h := filled_run ops
  refine ⟨h.last_nodup, ?_, fun hfresh => ?_⟩
  · rw [h.show, h.last, List.map_map]
    rfl
  · have hl := latest_run ops hfresh
    rw [hl.filled.show]
    congr 1
    refine List.ext_getElem (by simp [Nat.min_comm]; omega) fun i h₁ h₂ => ?_
    simp only [List.getElem_map, List.getElem_range', List.getElem_drop, Nat.one_mul]
    rw [hl.entry _ _ (List.getElem?_eq_getElem _) (by omega)]

end LogState

end Redroid.Binder.Log
