import Mathlib.Algebra.Order.Ring.Int
import Promscale.Jsonb.Operators
import Promscale.Lib.Fallible
import Promscale.Lib.Numbered
import Promscale.Postgres.Timestamps

/-!
# The maintenance jobs

`prom_api.config_maintenance_jobs` in `011-maintenance.sql` sets how many jobs the scheduler of
TimescaleDB runs for a signal and a type of maintenance, how often, and with which config. It
deletes the jobs that are not as they should be, counts the others, and adds or deletes jobs until
their number is right.
-/
namespace Promscale.Jobs

open Promscale.Lib
open Promscale.Jsonb

/-- `_ps_catalog.signal_type` -/
inductive SignalType where
  | metrics
  | traces
  deriving DecidableEq, Repr

/-- `_ps_catalog.job_type` -/
inductive JobType where
  | retention
  | compression
  deriving DecidableEq, Repr

def SignalType.text : SignalType → PgText
  | metrics => .literal "metrics"
  | traces => .literal "traces"

def JobType.text : JobType → PgText
  | retention => .literal "retention"
  | compression => .literal "compression"

/-- A row of `timescaledb_information.jobs`. -/
structure Job where
  jobId : Nat
  procSchema : String
  procName : String
  scheduleInterval : Interval
  config : Option (Value Numeric)

abbrev JobTable := Numbered Job Job.jobId

inductive ConfigError where
  | invalidBoolean (input : PgText)
  | integerOutOfRange
  | intervalOutOfRange
  | timestampOutOfRange
  deriving DecidableEq

def ConfigError.message : ConfigError → List UInt8
  | invalidBoolean input =>
    "invalid input syntax for type boolean: \"".toUTF8.data.toList ++ input.bytes ++ [0x22]
  | integerOutOfRange => "integer out of range".toUTF8.data.toList
  | intervalOutOfRange => "interval out of range".toUTF8.data.toList
  | timestampOutOfRange => "timestamp out of range".toUTF8.data.toList

/-- `(random() / 2.0 + 0.5) * interval '1 min'`, in microseconds. -/
abbrev Jitter := { micros : Int // 30000000 ≤ micros ∧ micros ≤ 60000000 }

/-- `random() / 2.0 + 0.5` -/
abbrev Share := { x : Binary64 // x.IsFinite ∧ 1 / 2 ≤ x.toRat ∧ x.toRat ≤ 1 }

/-- What a call does not decide: the order a scan reads rows in, the clock, and what `random`
returns for the interval and for the start of each new job. -/
structure Env where
  scan : List Job → List Job
  scan_perm : ∀ jobs, (scan jobs).Perm jobs
  now : Int
  jitter : Nat → Jitter
  share : Nat → Share

def signalKey : PgText := .literal "signal"
def typeKey : PgText := .literal "type"
def logVerboseKey : PgText := .literal "log_verbose"

/-- The cast of a text to `boolean`. -/
def boolean (s : PgText) : Except ConfigError Bool :=
  match boolin s with
  | some b => .ok b
  | none => .error (.invalidBoolean s)

/-- A number as an `int`. -/
def int4 (n : Int) : Except ConfigError Int :=
  if IsInt32 n then .ok n else .error .integerOutOfRange

/-- `new_schedule_interval + (random() / 2.0 + 0.5) * interval '1 min'` -/
def plusJitter (i : Interval) (jitter : Jitter) : Except ConfigError Interval :=
  if IsInt64 (i.micros + jitter) then .ok { i with micros := i.micros + jitter }
  else .error .intervalOutOfRange

/-- `now() + (random() / 2.0 + 0.5) * schedule_interval` -/
def initialStart (now : Int) (share : Share) (scheduleInterval : Interval) :
    Except ConfigError Int :=
  match scheduleInterval.mul share with
  | none => .error .intervalOutOfRange
  | some shift =>
    match timestamptzPlInterval now shift with
    | none => .error .timestampOutOfRange
    | some start => .ok start

/-- `proc_schema = '_prom_catalog' AND proc_name = 'execute_maintenance_job'` -/
def isMaintenanceJob (j : Job) : Bool :=
  j.procSchema = "_prom_catalog" && j.procName = "execute_maintenance_job"

/-- `coalesce(config, '{}'::jsonb) ?& ARRAY['signal', 'type']` -/
def bothKeys (j : Job) : Bool :=
  (j.config.getD (.object [])).existsAll [signalKey, typeKey]

/-- `coalesce(config->>key, '')` -/
def textUnder (key : PgText) (config : Option (Value Numeric)) : PgText :=
  (config.bind (Value.fieldText key)).getD (.literal "")

section Configuration
variable (signal : SignalType) (jobType : JobType) (newScheduleInterval : Interval)

/-- The jobs that are counted. -/
def isFor (j : Job) : Bool :=
  isMaintenanceJob j && (textUnder signalKey j.config = signal.text &&
    textUnder typeKey j.config = jobType.text)

def finalConfig (newConfig : Option (Value Numeric)) : Value Numeric :=
  ((newConfig.getD (.object [])).concat (jsonbBuildObject signalKey signal.text)).concat
    (jsonbBuildObject typeKey jobType.text)

/-- `schedule_interval != new_schedule_interval OR final_config IS DISTINCT FROM config` -/
def differs (final : Value Numeric) (j : Job) : Bool :=
  j.scheduleInterval.value != newScheduleInterval.value ||
    !(j.config.any fun config => final.equals config)

/-- `delete_job` for the jobs that meet a condition. -/
def deleteWhere (env : Env) (p : Job → Bool) (t : JobTable) : JobTable :=
  t.deleteAll (env.scan (t.rows.filter p))

/-- `delete_job` for the jobs that meet a condition, with a `LIMIT`. -/
def deleteLimit (env : Env) (p : Job → Bool) (limit : Nat) (t : JobTable) : JobTable :=
  t.deleteAll ((env.scan (t.rows.filter p)).take limit)

/-- `add_job`, of the procedure `_prom_catalog.execute_maintenance_job`; the scheduler keeps the
initial start elsewhere. -/
def addJob (now : Int) (share : Share) (scheduleInterval : Interval) (config : Value Numeric)
    (t : JobTable) : Except ConfigError JobTable := do
  let _initialStart ← initialStart now share scheduleInterval
  pure (t.add
    (fun i => ⟨i, "_prom_catalog", "execute_maintenance_job", scheduleInterval, some config⟩)
    fun _ => rfl)

/-- `add_job` for each number of a series. -/
def addJobs (env : Env) (final : Value Numeric) (series : List Nat) (t : JobTable) :
    Except ConfigError JobTable :=
  series.foldlM (fun t k => do
    let scheduleInterval ← plusJitter newScheduleInterval (env.jitter k)
    addJob env.now (env.share k) scheduleInterval final t) t

/-- The two statements that delete the jobs with an old config and those that differ from what
is asked for. -/
def cleaned (env : Env) (final : Value Numeric) (t : JobTable) : JobTable :=
  deleteWhere env (fun j => isFor signal jobType j && differs newScheduleInterval final j)
    (deleteWhere env (fun j => isMaintenanceJob j && !bothKeys j) t)

/-- `IF cnt < number_jobs` -/
def addMissing (env : Env) (final : Value Numeric) (cnt numberJobs : Int) (t : JobTable) :
    Except ConfigError JobTable :=
  if cnt < numberJobs then do
    let missing ← int4 (numberJobs - cnt)
    addJobs newScheduleInterval env final (List.range missing.toNat) t
  else pure t

/-- `IF cnt > number_jobs` -/
def deleteExcess (env : Env) (cnt numberJobs : Int) (t : JobTable) : Except ConfigError JobTable :=
  if cnt > numberJobs then do
    let limit ← int4 (cnt - numberJobs)
    pure (deleteLimit env (isFor signal jobType) limit.toNat t)
  else pure t

/-- `prom_api.config_maintenance_jobs(signal, job_type, number_jobs, new_schedule_interval,
new_config)` -/
def configMaintenanceJobs (env : Env) (numberJobs : Int) (newConfig : Option (Value Numeric))
    (t : JobTable) : Except ConfigError (Bool × JobTable) := do
  let _logVerbose ← boolean ((newConfig.bind (Value.fieldText logVerboseKey)).getD
    (.literal "false"))
  let final := finalConfig signal jobType newConfig
  let t := cleaned signal jobType newScheduleInterval env final t
  let cnt ← int4 (t.rows.countP (isFor signal jobType))
  let t ← addMissing newScheduleInterval env final cnt numberJobs t
  let t ← deleteExcess signal jobType env cnt numberJobs t
  pure (true, t)

end Configuration

/-! ## What the conditions say -/

theorem SignalType.text_ne (signal : SignalType) : signal.text ≠ .literal "" := by
  cases signal <;> decide

theorem JobType.text_ne (jobType : JobType) : jobType.text ≠ .literal "" := by
  cases jobType <;> decide

section Conditions
variable {signal : SignalType} {jobType : JobType} {newScheduleInterval : Interval}

theorem existsKey_of_textUnder {key text : PgText} {config : Option (Value Numeric)}
    (htext : text ≠ .literal "") (h : textUnder key config = text) :
    (config.getD (.object [])).existsKey key = true := by
  cases config with
  | none => exact absurd h.symm htext
  | some v =>
    cases hfield : v.fieldText key with
    | none =>
      rw [textUnder, Option.bind_some, hfield] at h
      exact absurd h.symm htext
    | some s => exact Value.existsKey_of_fieldText hfield

/-- A job that is counted has both keys. -/
theorem bothKeys_of_isFor {j : Job} (h : isFor signal jobType j = true) : bothKeys j = true := by
  obtain ⟨-, htexts⟩ := Bool.and_eq_true_iff.mp h
  obtain ⟨hsignal, htype⟩ := Bool.and_eq_true_iff.mp htexts
  have hsignalKey := existsKey_of_textUnder signal.text_ne (of_decide_eq_true hsignal)
  have htypeKey := existsKey_of_textUnder jobType.text_ne (of_decide_eq_true htype)
  simp [bothKeys, Value.existsAll, hsignalKey, htypeKey]

/-- A config that differs in nothing is the final one. -/
theorem equals_of_not_differs {final : Value Numeric} {j : Job}
    (h : differs newScheduleInterval final j = false) :
    ∃ config, j.config = some config ∧ final.equals config = true := by
  obtain ⟨-, hconfig⟩ := Bool.or_eq_false_iff.mp h
  cases hj : j.config with
  | none => simp [hj] at hconfig
  | some config => exact ⟨config, rfl, by simpa [hj] using hconfig⟩

/-- The final config of an object has the texts of the signal and the type under their keys. -/
theorem isFor_of_final {newConfig : Option (Value Numeric)} (hobject : ∀ v ∈ newConfig, v.IsObject)
    {j : Job} (hjob : isMaintenanceJob j = true)
    (hconfig : j.config = some (finalConfig signal jobType newConfig)) :
    isFor signal jobType j = true := by
  have hmembers : ∃ ms, newConfig.getD (.object []) = .object ms := by
    cases newConfig with
    | none => exact ⟨[], rfl⟩
    | some v =>
      have hv := hobject v rfl
      cases v with
      | scalar s => cases hv
      | array xs => cases hv
      | object ms => exact ⟨ms, rfl⟩
  obtain ⟨ms, hms⟩ := hmembers
  have hkeys : signalKey ≠ typeKey := by decide
  have hfinal : finalConfig signal jobType newConfig = .object
      (Members.insert PgText.lengthThenBytes typeKey (.scalar (.string jobType.text))
        (Members.insert PgText.lengthThenBytes signalKey (.scalar (.string signal.text)) ms)) := by
    rw [finalConfig, hms, Value.concat_jsonbBuildObject, Value.concat_jsonbBuildObject]
  have hsignal : textUnder signalKey j.config = signal.text := by
    rw [hconfig, hfinal, textUnder, Option.bind_some, Value.fieldText,
      Members.find?_insert_of_ne hkeys, Members.find?_insert_self]
    rfl
  have htype : textUnder typeKey j.config = jobType.text := by
    rw [hconfig, hfinal, textUnder, Option.bind_some, Value.fieldText, Members.find?_insert_self]
    rfl
  simp [isFor, hjob, hsignal, htype]

end Conditions

/-! ## What the statements do -/

section Statements
variable {signal : SignalType} {jobType : JobType} {newScheduleInterval : Interval} {env : Env}
variable {final : Value Numeric} {t t' : JobTable}

theorem rows_deleteWhere (p : Job → Bool) :
    (deleteWhere env p t).rows = t.rows.filter fun j => !p j :=
  Numbered.rows_deleteAll_filter (env.scan_perm _)

theorem mem_cleaned {j : Job} :
    j ∈ (cleaned signal jobType newScheduleInterval env final t).rows ↔ j ∈ t.rows ∧
      (isMaintenanceJob j = true → bothKeys j = true) ∧
      (isFor signal jobType j = true → differs newScheduleInterval final j = false) := by
  rw [cleaned, rows_deleteWhere, rows_deleteWhere, List.mem_filter, List.mem_filter, and_assoc]
  apply and_congr_right
  intro _
  cases isMaintenanceJob j <;> cases isFor signal jobType j <;> simp

/-- The jobs that are as they should be already. -/
def isAsRequested (signal : SignalType) (jobType : JobType) (newScheduleInterval : Interval)
    (final : Value Numeric) (j : Job) : Bool :=
  isFor signal jobType j && !differs newScheduleInterval final j

/-- What is left to count are the jobs that are as they should be. -/
theorem countP_cleaned :
    (cleaned signal jobType newScheduleInterval env final t).rows.countP (isFor signal jobType) =
      t.rows.countP (isAsRequested signal jobType newScheduleInterval final) := by
  rw [cleaned, rows_deleteWhere, rows_deleteWhere, List.filter_filter, List.countP_filter]
  apply List.countP_congr
  intro j _
  cases hfor : isFor signal jobType j with
  | false => simp [isAsRequested, hfor]
  | true => simp [isAsRequested, hfor, bothKeys_of_isFor hfor]

/-- A job as `add_job` makes it: the interval is the one asked for and a jitter. -/
structure IsNew (newScheduleInterval : Interval) (final : Value Numeric) (j : Job) : Prop where
  maintenance : isMaintenanceJob j = true
  config : j.config = some final
  interval : ∃ jitter : Jitter, j.scheduleInterval.value = newScheduleInterval.value + jitter

theorem plusJitter_value {i i' : Interval} {jitter : Jitter} (h : plusJitter i jitter = .ok i') :
    i'.value = i.value + jitter := by
  obtain ⟨-, rfl⟩ := of_check_ok h
  simp only [Interval.value]
  omega

theorem addJobs_adds {series : List Nat}
    (h : addJobs newScheduleInterval env final series t = .ok t') :
    ∃ new, Numbered.Extends t t' new ∧ new.length = series.length ∧
      ∀ j ∈ new, IsNew newScheduleInterval final j := by
  refine @foldlM_invariant _ _ _ _ (fun done s => ∃ new, Numbered.Extends t s new ∧
    new.length = done.length ∧ ∀ j ∈ new, IsNew newScheduleInterval final j) ?_ series [] t t'
    ⟨[], Numbered.Extends.refl t, rfl, by simp⟩ h
  rintro done k s s' ⟨new, hextends, hlength, hnew⟩ hstep
  obtain ⟨scheduleInterval, hplus, hadd⟩ := bind_eq_ok hstep
  obtain ⟨start, -, hadd⟩ := bind_eq_ok hadd
  cases hadd
  refine ⟨_, hextends.add fun _ => rfl, by simp [hlength], ?_⟩
  intro j hj
  rcases List.mem_append.mp hj with hj | hj
  · exact hnew j hj
  · rw [List.mem_singleton.mp hj]
    exact ⟨rfl, rfl, env.jitter k, plusJitter_value hplus⟩

theorem int4_eq_ok {n m : Int} (h : int4 n = .ok m) : m = n := (of_check_ok h).2

/-- How the number of jobs is made right. -/
inductive Resized (signal : SignalType) (jobType : JobType) (newScheduleInterval : Interval)
    (env : Env) (numberJobs : Int) (final : Value Numeric) (t t' : JobTable) : Prop
  | added (new : List Job) (hlt : t.rows.countP (isFor signal jobType) < numberJobs)
      (hextends : Numbered.Extends t t' new)
      (hlength : new.length = numberJobs - t.rows.countP (isFor signal jobType))
      (hnew : ∀ j ∈ new, IsNew newScheduleInterval final j)
  | deleted (hle : numberJobs ≤ t.rows.countP (isFor signal jobType))
      (ht : t' = deleteLimit env (isFor signal jobType)
        (t.rows.countP (isFor signal jobType) - numberJobs).toNat t)

/-- What a call that returns has done. -/
theorem configMaintenanceJobs_returns {numberJobs : Int} {newConfig : Option (Value Numeric)}
    {b : Bool} (h : configMaintenanceJobs signal jobType newScheduleInterval env numberJobs
      newConfig t = .ok (b, t')) :
    b = true ∧ Resized signal jobType newScheduleInterval env numberJobs
      (finalConfig signal jobType newConfig)
      (cleaned signal jobType newScheduleInterval env (finalConfig signal jobType newConfig) t)
      t' := by
  obtain ⟨_, -, h⟩ := bind_eq_ok h
  obtain ⟨cnt, hcnt, h⟩ := bind_eq_ok h
  obtain ⟨grown, hgrown, h⟩ := bind_eq_ok h
  obtain ⟨shrunk, hshrunk, h⟩ := bind_eq_ok h
  cases h
  rw [int4_eq_ok hcnt] at hgrown hshrunk
  refine ⟨rfl, ?_⟩
  unfold addMissing at hgrown
  unfold deleteExcess at hshrunk
  split at hgrown
  · rename_i hlt
    obtain ⟨missing, hmissing, hadd⟩ := bind_eq_ok hgrown
    rw [int4_eq_ok hmissing] at hadd
    obtain ⟨new, hextends, hlength, hnew⟩ := addJobs_adds hadd
    rw [if_neg (by omega)] at hshrunk
    cases hshrunk
    rw [List.length_range] at hlength
    exact .added new hlt hextends (by omega) hnew
  · rename_i hle
    cases hgrown
    refine .deleted (Int.not_lt.mp hle) ?_
    split at hshrunk
    · obtain ⟨limit, hlimit, hdelete⟩ := bind_eq_ok hshrunk
      rw [int4_eq_ok hlimit] at hdelete
      cases hdelete
      rfl
    · rename_i hge
      cases hshrunk
      have hzero : ∀ n : Nat, (n : Int) = numberJobs → (n - numberJobs).toNat = 0 := by omega
      rw [hzero _ (by omega)]
      rfl

end Statements

end Promscale.Jobs
