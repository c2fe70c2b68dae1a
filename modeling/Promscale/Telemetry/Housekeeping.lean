import Mathlib.Algebra.BigOperators.Group.List.Basic
import Mathlib.Algebra.Ring.Int.Defs
import Promscale.Lib.Fallible
import Promscale.Lib.Related
import Promscale.Lib.Run
import Promscale.Lib.Table
import Promscale.Postgres

/-!
# Telemetry housekeeping

`promscale_instance_information` has a row for each running Promscale with what it counts, and
one row, the counter-reset row, for all that have gone. `promscale_telemetry_housekeeping` in
`010-telemetry.sql` deletes the rows of the instances that have not reported for long, and adds
what they have counted to the counter-reset row.
-/
namespace Promscale.Telemetry

open Promscale.Lib

/-- The counting columns of `promscale_instance_information`. -/
inductive Counter where
  | promscaleIngestedSamplesTotal
  | promscaleMetricsQueriesSuccessTotal
  | promscaleMetricsQueriesTimedoutTotal
  | promscaleMetricsQueriesFailedTotal
  | promscaleTraceQueryRequestsExecutedTotal
  | promscaleTraceDependencyRequestsExecutedTotal
  | promscaleIngestedSpansTotal
  deriving DecidableEq, Repr

namespace Counter

def all : List Counter :=
  [promscaleIngestedSamplesTotal, promscaleMetricsQueriesSuccessTotal,
    promscaleMetricsQueriesTimedoutTotal, promscaleMetricsQueriesFailedTotal,
    promscaleTraceQueryRequestsExecutedTotal, promscaleTraceDependencyRequestsExecutedTotal,
    promscaleIngestedSpansTotal]

theorem mem_all (c : Counter) : c ∈ all := by
  cases c <;> decide

end Counter

/-- The Postgres type `timestamptz`, in microseconds. -/
inductive Timestamp where
  | at (micros : Int)
  | infinity
  | negInfinity
  deriving DecidableEq, Repr

structure InstanceInformation where
  uuid : BitVec 128
  lastUpdated : Timestamp
  /-- The values of the counting columns. -/
  counters : Counter → Int
  isCounterResetRow : Bool

namespace InstanceInformation

/-- The primary key; the check makes the row of the zero `uuid` the counter-reset row. -/
def constraints : Constraints InstanceInformation where
  conflict a b := decide (a.uuid = b.uuid)
  symm a b := by
    rw [decide_eq_decide]
    exact eq_comm
  check r := (r.uuid == 0 || !r.isCounterResetRow) && (r.uuid != 0 || r.isCounterResetRow)

end InstanceInformation

abbrev Instances := Table InstanceInformation InstanceInformation.constraints

def timestampOutOfRange : PgError := ⟨"cannot subtract infinite timestamps", "22008"⟩
def intervalOutOfRange : PgError := ⟨"interval out of range", "22008"⟩
def checkViolation : PgError :=
  ⟨"new row for relation \"promscale_instance_information\" violates check constraint", "23514"⟩
def bigintOutOfRange : PgError := ⟨"bigint out of range", "22003"⟩

/-- `current_timestamp - last_updated`, in microseconds. -/
def age (now : Int) : Timestamp → Except PgError Int
  | .at micros => .ok (now - micros)
  | _ => .error timestampOutOfRange

/-- The `float8` nearest to an integer, to an even one of two. -/
def nearestFloat8 (n : Int) : Int :=
  let unit : Int := 2 ^ (n.natAbs.log2 - 52)
  let below := n / unit
  let rest := n % unit
  if 2 * rest < unit ∨ (2 * rest = unit ∧ below % 2 = 0) then below * unit else (below + 1) * unit

/-- `telemetry_sync_duration * 2`; the factor is a `float8`. -/
def twice (i : Interval) : Except PgError Interval :=
  let micros := 2 * nearestFloat8 i.micros
  if IsInt32 (2 * i.months) ∧ IsInt32 (2 * i.days) ∧ IsInt64 micros then
    .ok ⟨2 * i.months, 2 * i.days, micros⟩
  else .error intervalOutOfRange

/-- `is_counter_reset_row = TRUE AND current_timestamp - last_updated < telemetry_sync_duration` -/
def isRecentReset (now : Int) (telemetrySyncDuration : Interval) (r : InstanceInformation) :
    Except PgError Bool :=
  if r.isCounterResetRow then
    (age now r.lastUpdated).map fun a => decide (a < telemetrySyncDuration.value)
  else .ok false

/-- `is_counter_reset_row = FALSE AND current_timestamp - last_updated > limit` -/
def isStale (now : Int) (limit : Interval) (r : InstanceInformation) : Except PgError Bool :=
  if r.isCounterResetRow then .ok false
  else (age now r.lastUpdated).map fun a => decide (limit.value < a)

/-- `sum`, which is NULL over no rows. -/
def sum (values : List Int) : Option Int :=
  if values = [] then none else some values.sum

/-- The rows that a condition without errors selects. -/
def holds (condition : InstanceInformation → Except PgError Bool) (r : InstanceInformation) : Bool :=
  match condition r with
  | .ok b => b
  | .error _ => false

/-- The `UPDATE` of a row by what was deleted. -/
def addDeleted (now : Int) (deleted : Counter → Option Int) (r : InstanceInformation) :
    InstanceInformation :=
  if r.isCounterResetRow then
    { r with
      counters := fun c => r.counters c + (deleted c).getD 0
      lastUpdated := .at now }
  else r

/-- The `UPDATE` of the row of an instance that counts on. -/
def addAmounts (now : Int) (uuid : BitVec 128) (amounts : Counter → Int)
    (r : InstanceInformation) : InstanceInformation :=
  if r.uuid = uuid then
    { r with
      counters := fun c => r.counters c + amounts c
      lastUpdated := .at now }
  else r

/-- The delete and the update are one statement. -/
def moved (now : Int) (limit : Interval) (t : Instances) : Instances :=
  let stale := holds (isStale now limit)
  let deleted := fun c => sum ((t.rows.filter stale).map fun r => r.counters c)
  (t.delete stale).update (addDeleted now deleted)
    (fun a b => by unfold addDeleted; split <;> split <;> rfl)
    (fun r => by unfold addDeleted; split <;> rfl)

def moveStale (now : Int) (limit : Interval) (t : Instances) : Except PgError Instances :=
  match t.rows.mapM (isStale now limit) with
  | .error e => .error e
  | .ok _ =>
    let left := moved now limit t
    if ∀ r ∈ left.rows, r.isCounterResetRow → ∀ c ∈ Counter.all, IsInt64 (r.counters c) then .ok left
    else .error bigintOutOfRange

/-- `promscale_telemetry_housekeeping`; the table lock may not be available. -/
def promscaleTelemetryHousekeeping (lockAvailable : Bool) (now : Int)
    (telemetrySyncDuration : Interval) (t : Instances) : Except PgError (Bool × Instances) := do
  if !lockAvailable then
    return (false, t)
  let recent ← t.rows.mapM (isRecentReset now telemetrySyncDuration)
  if recent.any id then
    return (false, t)
  let limit ← twice telemetrySyncDuration
  let left ← moveStale now limit t
  return (true, left)

/-- What an instance reports, with the statement of a client: its row is inserted, or the amounts
are added to it. -/
def increment (now : Int) (uuid : BitVec 128) (amounts : Counter → Int) (t : Instances) :
    Except PgError Instances :=
  if huuid : uuid = 0 then .error checkViolation
  else
    match t.insert ⟨uuid, .at now, amounts, false⟩
        (by simpa [InstanceInformation.constraints] using huuid) with
    | some t' => if ∀ c ∈ Counter.all, IsInt64 (amounts c) then .ok t' else .error bigintOutOfRange
    | none =>
      let t' := t.update (addAmounts now uuid amounts)
        (fun a b => by unfold addAmounts; split <;> split <;> rfl)
        (fun r => by unfold addAmounts; split <;> rfl)
      if ∀ r ∈ t'.rows, r.uuid = uuid → ∀ c ∈ Counter.all, IsInt64 (r.counters c) then .ok t'
      else .error bigintOutOfRange

/-! ## Totals -/

/-- A counter over all rows. -/
def total (t : Instances) (c : Counter) : Int := (t.rows.map fun r => r.counters c).sum

def HasResetRow (t : Instances) : Prop := ∃ r ∈ t.rows, r.isCounterResetRow = true

theorem sum_partition (rows : List InstanceInformation) (p : InstanceInformation → Bool)
    (c : Counter) :
    ((rows.filter p).map fun r => r.counters c).sum +
      ((rows.filter fun r => !p r).map fun r => r.counters c).sum =
        (rows.map fun r => r.counters c).sum := by
  induction rows with
  | nil => rfl
  | cons r rest ih =>
    cases hp : p r with
    | true =>
      simp only [List.filter_cons, hp, Bool.not_true, Bool.false_eq_true, if_true, if_false,
        List.map_cons, List.sum_cons]
      omega
    | false =>
      simp only [List.filter_cons, hp, Bool.not_false, Bool.false_eq_true, if_true, if_false,
        List.map_cons, List.sum_cons]
      omega

/-- Adding to the rows that meet a condition adds as often as there are such rows. -/
theorem sum_map_add {f : InstanceInformation → InstanceInformation} {p : InstanceInformation → Bool}
    {c : Counter} {d : Int}
    (hf : ∀ r, (f r).counters c = if p r then r.counters c + d else r.counters c)
    (rows : List InstanceInformation) :
    ((rows.map f).map fun r => r.counters c).sum =
      (rows.map fun r => r.counters c).sum + rows.countP p * d := by
  induction rows with
  | nil => simp
  | cons r rest ih =>
    simp only [List.map_cons, List.sum_cons, hf] at ih ⊢
    rw [ih]
    cases hp : p r with
    | true =>
      rw [List.countP_cons_of_pos hp, if_pos rfl]
      push_cast
      rw [Int.add_mul, Int.one_mul]
      omega
    | false =>
      rw [List.countP_cons_of_neg (by simp [hp]), if_neg (by simp)]
      omega

theorem countP_uuid {t : Instances} {r : InstanceInformation} (hr : r ∈ t.rows) :
    (t.rows.countP fun r' => r'.uuid = r.uuid) = 1 := by
  rw [List.countP_eq_length_filter, t.filter_eq_singleton hr (by simp) fun x y hx hy => ?_]
  · rfl
  · exact decide_eq_true ((of_decide_eq_true hx).trans (of_decide_eq_true hy).symm)

/-- The check: the counter-reset row is the one of the zero `uuid`. -/
theorem reset_iff {t : Instances} {r : InstanceInformation} (hr : r ∈ t.rows) :
    r.isCounterResetRow = true ↔ r.uuid = 0 := by
  have hcheck := t.checked r hr
  simp only [InstanceInformation.constraints, Bool.and_eq_true, Bool.or_eq_true, beq_iff_eq,
    Bool.not_eq_true', bne_iff_ne] at hcheck
  constructor
  · intro hreset
    exact hcheck.1.resolve_right (by simp [hreset])
  · intro huuid
    exact hcheck.2.resolve_left (not_not.mpr huuid)

theorem countP_reset {t : Instances} (h : HasResetRow t) :
    (t.rows.countP fun r => r.isCounterResetRow) = 1 := by
  obtain ⟨r, hr, hreset⟩ := h
  rw [← countP_uuid hr]
  refine List.countP_congr fun r' hr' => ?_
  rw [reset_iff hr', decide_eq_true_eq, (reset_iff hr).mp hreset]

theorem countP_left {t : Instances} (h : HasResetRow t) (now : Int) (limit : Interval) :
    ((t.rows.filter fun r => !holds (isStale now limit) r).countP fun r =>
      r.isCounterResetRow) = 1 := by
  rw [← countP_reset h, List.countP_filter]
  refine List.countP_congr fun r _ => ?_
  have hkept : r.isCounterResetRow = true → holds (isStale now limit) r = false := by
    intro hreset
    simp [holds, isStale, hreset]
  constructor
  · intro hr
    exact (Bool.and_eq_true_iff.mp hr).1
  · intro hr
    rw [hr, hkept hr]
    rfl

/-- The counters of the stale rows, added up. -/
def staleSum (now : Int) (limit : Interval) (t : Instances) (c : Counter) : Int :=
  ((t.rows.filter fun r => isStale now limit r = .ok true).map fun r => r.counters c).sum

/-- What moving stale rows leaves. -/
structure Moves (now : Int) (limit : Interval) (t t' : Instances) : Prop where
  /-- The instances whose rows are not stale stay as they are, the others go. -/
  instances : ∀ r, r.isCounterResetRow = false →
    (r ∈ t'.rows ↔ r ∈ t.rows ∧ isStale now limit r = .ok false)
  /-- The counter-reset row has the counters of those that went. -/
  reset : ∀ r ∈ t.rows, r.isCounterResetRow = true →
    ∃ r' ∈ t'.rows, r'.isCounterResetRow = true ∧ r'.lastUpdated = .at now ∧
      ∀ c, r'.counters c = r.counters c + staleSum now limit t c
  total : HasResetRow t → ∀ c, total t' c = total t c

theorem getD_sum (values : List Int) : (sum values).getD 0 = values.sum := by
  unfold sum
  split
  · rename_i h
    rw [h]
    rfl
  · rfl

section
variable {now : Int} {d limit : Interval} {t : Instances}

/-- The rows' ages can be taken. -/
def Ages (now : Int) (limit : Interval) (t : Instances) : Prop :=
  ∀ r ∈ t.rows, isStale now limit r = .ok (holds (isStale now limit) r)

theorem Ages.filter (h : Ages now limit t) : t.rows.filter (holds (isStale now limit)) =
    t.rows.filter fun r => isStale now limit r = .ok true := by
  refine List.filter_congr fun r hr => ?_
  rw [h r hr, Bool.eq_iff_iff, decide_eq_true_eq, Except.ok.injEq]

/-- The counters of a row after the statement. -/
theorem Ages.counters_addDeleted (h : Ages now limit t) (r : InstanceInformation) (c : Counter) :
    (addDeleted now (fun c => sum ((t.rows.filter (holds (isStale now limit))).map
        fun r => r.counters c)) r).counters c =
      if r.isCounterResetRow then r.counters c + staleSum now limit t c else r.counters c := by
  unfold addDeleted
  split
  · rw [staleSum, ← h.filter]
    exact congrArg (r.counters c + ·) (getD_sum _)
  · rfl

theorem reset_addDeleted (deleted : Counter → Option Int) (r : InstanceInformation) :
    (addDeleted now deleted r).isCounterResetRow = r.isCounterResetRow := by
  unfold addDeleted
  split
  · rfl
  · rfl

theorem holds_isStale_reset {r : InstanceInformation} (hreset : r.isCounterResetRow = true) :
    holds (isStale now limit) r = false := by
  simp [holds, isStale, hreset]

theorem mem_moved {r' : InstanceInformation} : r' ∈ (moved now limit t).rows ↔
    ∃ r ∈ t.rows, holds (isStale now limit) r = false ∧
      addDeleted now (fun c => sum ((t.rows.filter (holds (isStale now limit))).map
        fun r => r.counters c)) r = r' := by
  simp only [moved, Table.mem_update, Table.mem_delete, and_assoc]

theorem moved_moves (h : Ages now limit t) : Moves now limit t (moved now limit t) := by
  refine ⟨fun r hinstance => ?_, fun r hr hreset => ?_, fun hreset c => ?_⟩
  · rw [mem_moved]
    constructor
    · rintro ⟨a, ha, hkept, rfl⟩
      rw [reset_addDeleted] at hinstance
      rw [addDeleted, if_neg (by simp [hinstance]), h a ha, hkept]
      exact ⟨ha, rfl⟩
    · rintro ⟨hr, hkept⟩
      exact ⟨r, hr, by rw [holds, hkept], by rw [addDeleted, if_neg (by simp [hinstance])]⟩
  · refine ⟨_, mem_moved.mpr ⟨r, hr, holds_isStale_reset hreset, rfl⟩, ?_, ?_, fun c => ?_⟩
    · rw [reset_addDeleted, hreset]
    · rw [addDeleted, if_pos hreset]
    · rw [h.counters_addDeleted, if_pos hreset]
  · have hleft := countP_left hreset now limit
    have hparts := sum_partition t.rows (holds (isStale now limit)) c
    refine (sum_map_add (fun r => h.counters_addDeleted r c) _).trans ?_
    unfold total
    rw [show (t.delete (holds (isStale now limit))).rows =
      t.rows.filter fun r => !holds (isStale now limit) r from rfl, hleft, staleSum, ← h.filter]
    omega

/-- The statement stays in range when the counters of the counter-reset row do. -/
theorem Ages.inRange_iff (h : Ages now limit t) :
    (∀ r ∈ (moved now limit t).rows, r.isCounterResetRow → ∀ c ∈ Counter.all,
      IsInt64 (r.counters c)) ↔
    ∀ r ∈ t.rows, r.isCounterResetRow = true → ∀ c,
      IsInt64 (r.counters c + staleSum now limit t c) := by
  simp only [mem_moved]
  constructor
  · intro hrange r hr hreset c
    have hrow := hrange _ ⟨r, hr, holds_isStale_reset hreset, rfl⟩
      (by rw [reset_addDeleted, hreset]) c (Counter.mem_all c)
    rwa [h.counters_addDeleted, if_pos hreset] at hrow
  · rintro hrange _ ⟨r, hr, -, rfl⟩ hreset c -
    rw [reset_addDeleted] at hreset
    rw [h.counters_addDeleted, if_pos hreset]
    exact hrange r hr hreset c

theorem moveStale_eq_ok_iff {t' : Instances} : moveStale now limit t = .ok t' ↔
    Ages now limit t ∧ (∀ r ∈ t.rows, r.isCounterResetRow = true → ∀ c,
      IsInt64 (r.counters c + staleSum now limit t c)) ∧ t' = moved now limit t := by
  unfold moveStale
  constructor
  · intro h
    cases hstales : t.rows.mapM (isStale now limit) with
    | error e =>
      rw [hstales] at h
      cases h
    | ok stales =>
      rw [hstales] at h
      have hages : Ages now limit t := by
        intro r hr
        obtain ⟨b, -, hb⟩ := exists_right (mapM_eq_ok hstales) hr
        rw [holds, hb]
      obtain ⟨hrange, rfl⟩ := of_check_ok h
      exact ⟨hages, hages.inRange_iff.mp hrange, rfl⟩
  · rintro ⟨hages, hrange, rfl⟩
    rw [mapM_eq_ok_map hages]
    exact if_pos (hages.inRange_iff.mpr hrange)

/-! ## When a run has work to do -/

/-- Where a run with the lock raises an error: the age of an infinite time, twice the interval,
or a counter of the counter-reset row with those of the stale rows, is out of range. -/
inductive Fails (now : Int) (telemetrySyncDuration : Interval) (t : Instances) : Prop where
  | age {r : InstanceInformation} (hr : r ∈ t.rows)
      (hinfinite : ∀ micros, r.lastUpdated ≠ .at micros)
  | interval {e : PgError} (htwice : twice telemetrySyncDuration = .error e)
  | counter {limit : Interval} {r : InstanceInformation} {c : Counter}
      (htwice : twice telemetrySyncDuration = .ok limit) (hr : r ∈ t.rows)
      (hreset : r.isCounterResetRow = true)
      (hrange : ¬ IsInt64 (r.counters c + staleSum now limit t c))

/-- The lock is available, no run has updated the counter-reset row within the interval, and
nothing is out of range. -/
structure Works (lockAvailable : Bool) (now : Int) (telemetrySyncDuration : Interval)
    (t : Instances) : Prop where
  lock : lockAvailable = true
  due : ∀ r ∈ t.rows, r.isCounterResetRow = true → ∀ micros, r.lastUpdated = .at micros →
    telemetrySyncDuration.value ≤ now - micros
  succeeds : ¬ Fails now telemetrySyncDuration t

theorem age_of_map_eq_ok {f : Int → Bool} {ts : Timestamp} {b : Bool}
    (h : (age now ts).map f = .ok b) : ∃ micros, ts = .at micros := by
  cases ts with
  | «at» micros => exact ⟨micros, rfl⟩
  | infinity => cases h
  | negInfinity => cases h

/-- Each row's time is looked at by one of the two conditions. -/
theorem finite_of_ok {r : InstanceInformation} {b b' : Bool}
    (hrecent : isRecentReset now d r = .ok b) (hstale : isStale now limit r = .ok b') :
    ∃ micros, r.lastUpdated = .at micros := by
  cases hreset : r.isCounterResetRow with
  | true =>
    rw [isRecentReset, if_pos hreset] at hrecent
    exact age_of_map_eq_ok hrecent
  | false =>
    rw [isStale, if_neg (by simp [hreset])] at hstale
    exact age_of_map_eq_ok hstale

variable {lockAvailable : Bool}

theorem Works.finite (h : Works lockAvailable now d t) {r : InstanceInformation}
    (hr : r ∈ t.rows) : ∃ micros, r.lastUpdated = .at micros := by
  by_contra hinfinite
  exact h.succeeds (.age hr (not_exists.mp hinfinite))

theorem Works.isRecentReset (h : Works lockAvailable now d t) {r : InstanceInformation}
    (hr : r ∈ t.rows) : isRecentReset now d r = .ok false := by
  obtain ⟨micros, hmicros⟩ := h.finite hr
  unfold Telemetry.isRecentReset
  split
  · rename_i hreset
    have hdue := h.due r hr hreset micros hmicros
    rw [hmicros, age, Except.map, Except.ok.injEq, decide_eq_false_iff_not]
    omega
  · rfl

theorem Works.ages (h : Works lockAvailable now d t) (limit : Interval) : Ages now limit t := by
  intro r hr
  obtain ⟨micros, hmicros⟩ := h.finite hr
  unfold holds isStale
  split
  · rfl
  · rw [hmicros, age, Except.map]

/-- A run returns true exactly when it has work to do, and then moves the stale rows. -/
theorem housekeeping_eq_true_iff {t' : Instances} :
    promscaleTelemetryHousekeeping lockAvailable now d t = .ok (true, t') ↔
      Works lockAvailable now d t ∧ ∃ limit, twice d = .ok limit ∧ t' = moved now limit t := by
  unfold promscaleTelemetryHousekeeping
  constructor
  · intro h
    cases hlock : lockAvailable with
    | false =>
      rw [hlock] at h
      cases h
    | true =>
      rw [hlock] at h
      obtain ⟨recent, hrecent, h⟩ := bind_eq_ok h
      cases hany : recent.any id with
      | true =>
        rw [hany] at h
        cases h
      | false =>
        rw [hany] at h
        obtain ⟨limit, hlimit, h⟩ := bind_eq_ok h
        obtain ⟨left, hleft, h⟩ := bind_eq_ok h
        cases h
        obtain ⟨hages, hrange, rfl⟩ := moveStale_eq_ok_iff.mp hleft
        have hnone : ∀ r ∈ t.rows, isRecentReset now d r = .ok false := by
          intro r hr
          obtain ⟨b, hb, hrow⟩ := exists_right (mapM_eq_ok hrecent) hr
          have hfalse := List.any_eq_false.mp hany b hb
          rw [hrow]
          exact congrArg _ (Bool.eq_false_iff.mpr hfalse)
        refine ⟨⟨rfl, fun r hr hreset micros hmicros => ?_, ?_⟩, limit, hlimit, rfl⟩
        · have hold := hnone r hr
          rw [isRecentReset, if_pos hreset, hmicros, age, Except.map, Except.ok.injEq,
            decide_eq_false_iff_not] at hold
          omega
        · intro hfails
          cases hfails with
          | age hr hinfinite =>
            obtain ⟨micros, hmicros⟩ := finite_of_ok (hnone _ hr) (hages _ hr)
            exact hinfinite micros hmicros
          | interval htwice =>
            rw [hlimit] at htwice
            cases htwice
          | counter htwice hr hreset hout =>
            rw [hlimit] at htwice
            cases htwice
            exact hout (hrange _ hr hreset _)
  · rintro ⟨hworks, limit, hlimit, rfl⟩
    have hmove : moveStale now limit t = .ok (moved now limit t) := by
      refine moveStale_eq_ok_iff.mpr ⟨hworks.ages limit, fun r hr hreset c => ?_, rfl⟩
      by_contra hout
      exact hworks.succeeds (.counter hlimit hr hreset hout)
    rw [hworks.lock, mapM_eq_ok_map fun r hr => hworks.isRecentReset hr, hlimit]
    simp [bind, Except.bind, pure, Except.pure, hmove]

theorem housekeeping_false {t' : Instances}
    (h : promscaleTelemetryHousekeeping lockAvailable now d t = .ok (false, t')) : t' = t := by
  unfold promscaleTelemetryHousekeeping at h
  cases lockAvailable with
  | false =>
    cases h
    rfl
  | true =>
    obtain ⟨recent, hrecent, h⟩ := bind_eq_ok h
    cases hany : recent.any id with
    | true =>
      rw [hany] at h
      cases h
      rfl
    | false =>
      rw [hany] at h
      obtain ⟨limit, hlimit, h⟩ := bind_eq_ok h
      obtain ⟨left, hleft, h⟩ := bind_eq_ok h
      cases h

end

theorem uuid_addAmounts (now : Int) (uuid : BitVec 128) (amounts : Counter → Int)
    (r : InstanceInformation) : (addAmounts now uuid amounts r).uuid = r.uuid := by
  unfold addAmounts
  split
  · rfl
  · rfl

/-- What an instance reports is added to its row, and to no other. -/
structure Reports (uuid : BitVec 128) (amounts : Counter → Int) (t t' : Instances) : Prop where
  others : ∀ r, r.uuid ≠ uuid → (r ∈ t'.rows ↔ r ∈ t.rows)
  instance_ne : uuid ≠ 0
  total : ∀ c, total t' c = total t c + amounts c

theorem increment_reports {now : Int} {uuid : BitVec 128} {amounts : Counter → Int}
    {t t' : Instances} (h : increment now uuid amounts t = .ok t') :
    Reports uuid amounts t t' := by
  unfold increment at h
  split at h
  · cases h
  · rename_i huuid
    split at h
    · rename_i inserted hinsert
      split at h
      · cases h
        obtain ⟨-, hrows⟩ := (Table.insert_eq_some_iff _ _ _ _).mp hinsert
        refine ⟨fun r hne => ?_, huuid, fun c => ?_⟩
        · rw [hrows, List.mem_append, List.mem_singleton, or_iff_left]
          rintro rfl
          exact hne rfl
        · simp [total, hrows]
      · cases h
    · rename_i hinsert
      obtain ⟨r, hr, hconflict⟩ := (Table.insert_eq_none_iff _ _ _).mp hinsert
      have hsame : r.uuid = uuid := of_decide_eq_true hconflict
      dsimp only at h
      split at h
      · cases h
        refine ⟨fun r' hne => ?_, huuid, fun c => ?_⟩
        · rw [Table.mem_update]
          constructor
          · rintro ⟨a, ha, rfl⟩
            rw [uuid_addAmounts] at hne
            rwa [addAmounts, if_neg hne]
          · intro hr'
            exact ⟨r', hr', by rw [addAmounts, if_neg hne]⟩
        · have hadd : ∀ r' : InstanceInformation, (addAmounts now uuid amounts r').counters c =
              if decide (r'.uuid = r.uuid) = true then r'.counters c + amounts c
              else r'.counters c := by
            intro r'
            unfold addAmounts
            by_cases hr' : r'.uuid = uuid
            · simp [hr', hsame]
            · simp [hr', hsame]
          refine (sum_map_add hadd _).trans ?_
          rw [countP_uuid hr]
          unfold total
          omega
      · cases h

/-! ## Runs -/

inductive Event where
  | housekeeping (lockAvailable : Bool) (now : Int) (telemetrySyncDuration : Interval)
  | increment (now : Int) (uuid : BitVec 128) (amounts : Counter → Int)

/-- A statement that raises an error changes nothing. -/
def step (t : Instances) : Event → Instances
  | .housekeeping lockAvailable now d =>
    match promscaleTelemetryHousekeeping lockAvailable now d t with
    | .ok (_, t') => t'
    | .error _ => t
  | .increment now uuid amounts =>
    match increment now uuid amounts t with
    | .ok t' => t'
    | .error _ => t

/-- What an event that is accepted adds to a counter. -/
def added (t : Instances) (c : Counter) : Event → Int
  | .housekeeping .. => 0
  | .increment now uuid amounts =>
    match increment now uuid amounts t with
    | .ok _ => amounts c
    | .error _ => 0

/-- What the events of a run add. -/
def addedBy (c : Counter) : Instances → List Event → Int
  | _, [] => 0
  | t, e :: rest => added t c e + addedBy c (step t e) rest

/-- Housekeeping moves the stale rows when it has work to do, and else leaves all rows alone; a
report changes one row. -/
def Event.Touches (t : Instances) : Event → Instances → Prop
  | .housekeeping lockAvailable now d, t' =>
    (Works lockAvailable now d t → ∃ limit, twice d = .ok limit ∧ Moves now limit t t') ∧
      (¬ Works lockAvailable now d t → t' = t)
  | .increment _ uuid _, t' => ∀ r, r.uuid ≠ uuid → (r ∈ t'.rows ↔ r ∈ t.rows)

theorem step_touches (t : Instances) (e : Event) : e.Touches t (step t e) := by
  cases e with
  | housekeeping lockAvailable now d =>
    refine ⟨fun hworks => ?_, fun hidle => ?_⟩
    · cases hlimit : twice d with
      | error e => exact absurd (.interval hlimit) hworks.succeeds
      | ok limit =>
        have hstep := housekeeping_eq_true_iff.mpr ⟨hworks, limit, hlimit, rfl⟩
        rw [step, hstep]
        exact ⟨limit, rfl, moved_moves (hworks.ages limit)⟩
    · rw [step]
      split
      · rename_i updated t' hstep
        cases updated with
        | true => exact absurd (housekeeping_eq_true_iff.mp hstep).1 hidle
        | false => exact housekeeping_false hstep
      · rfl
  | increment now uuid amounts =>
    cases h : increment now uuid amounts t with
    | error e => exact fun r _ => by simp [step, h]
    | ok t' =>
      have hstep : step t (.increment now uuid amounts) = t' := by simp [step, h]
      rw [hstep]
      exact (increment_reports h).others

theorem step_hasResetRow {t : Instances} (h : HasResetRow t) (e : Event) :
    HasResetRow (step t e) := by
  obtain ⟨r, hr, hreset⟩ := h
  have htouches := step_touches t e
  cases e with
  | housekeeping lockAvailable now d =>
    by_cases hworks : Works lockAvailable now d t
    · obtain ⟨limit, -, hmoves⟩ := htouches.1 hworks
      obtain ⟨r', hr', hreset', -⟩ := hmoves.reset r hr hreset
      exact ⟨r', hr', hreset'⟩
    · rw [htouches.2 hworks]
      exact ⟨r, hr, hreset⟩
  | increment now uuid amounts =>
    cases hincrement : increment now uuid amounts t with
    | error e =>
      refine ⟨r, ?_, hreset⟩
      simpa [step, hincrement] using hr
    | ok t' =>
      refine ⟨r, (htouches r ?_).mpr hr, hreset⟩
      rw [(reset_iff hr).mp hreset]
      exact (increment_reports hincrement).instance_ne.symm

theorem total_step {t : Instances} (h : HasResetRow t) (e : Event) (c : Counter) :
    total (step t e) c = total t c + added t c e := by
  cases e with
  | housekeeping lockAvailable now d =>
    have htouches := step_touches t (.housekeeping lockAvailable now d)
    by_cases hworks : Works lockAvailable now d t
    · obtain ⟨limit, -, hmoves⟩ := htouches.1 hworks
      exact (hmoves.total h c).trans (Int.add_zero _).symm
    · rw [htouches.2 hworks]
      exact (Int.add_zero _).symm
  | increment now uuid amounts =>
    cases hincrement : increment now uuid amounts t with
    | error e => simp [step, added, hincrement]
    | ok t' => simpa [step, added, hincrement] using (increment_reports hincrement).total c

/-- In every run of housekeeping and reports the counter-reset row stays, each counter over all
rows grows by what was reported, and each housekeeping that has work to do moves the rows of stale
instances into the counter-reset row and touches no other. -/
theorem housekeeping_conserves (t : Instances) (hreset : HasResetRow t) (events : List Event) :
    AllStates step HasResetRow t events ∧
      (∀ c, total (events.foldl step t) c = total t c + addedBy c t events) ∧
      AllSteps step (fun t e => e.Touches t (step t e)) t events := by
  induction events generalizing t with
  | nil => exact ⟨hreset, fun c => (Int.add_zero _).symm, trivial⟩
  | cons e rest ih =>
    obtain ⟨hstates, htotal, hsteps⟩ := ih (step t e) (step_hasResetRow hreset e)
    refine ⟨⟨hreset, hstates⟩, fun c => ?_, step_touches t e, hsteps⟩
    rw [List.foldl_cons, htotal c, total_step hreset e c, addedBy]
    omega

/-- The row that the table is created with. -/
def counterResetRow : InstanceInformation where
  uuid := 0
  lastUpdated := .at 692323200000000
  counters _ := 0
  isCounterResetRow := true

def initial : Instances := ⟨[counterResetRow], List.pairwise_singleton _ _, by decide⟩

/-- An instance reports twice and goes. -/
def oneInstance : List Event :=
  [.increment 692400000000000 7 fun _ => 3, .increment 692400060000000 7 fun _ => 2]

theorem oneInstance_works :
    Works true 692500000000000 ⟨0, 0, 3600000000⟩ (oneInstance.foldl step initial) := by
  have hreturns : ((promscaleTelemetryHousekeeping true 692500000000000 ⟨0, 0, 3600000000⟩
      (oneInstance.foldl step initial)).toOption.map Prod.fst) = some true := by
    decide +kernel
  cases hrun : promscaleTelemetryHousekeeping true 692500000000000 ⟨0, 0, 3600000000⟩
      (oneInstance.foldl step initial) with
  | error e =>
    rw [hrun] at hreturns
    cases hreturns
  | ok result =>
    obtain ⟨updated, t'⟩ := result
    rw [hrun] at hreturns
    cases hreturns
    exact (housekeeping_eq_true_iff.mp hrun).1

/-- A day later its row goes, and its counters are in the counter-reset row. -/
theorem housekeeping_conserves_oneInstance :
    let before := oneInstance.foldl step initial
    let after := step before (.housekeeping true 692500000000000 ⟨0, 0, 3600000000⟩)
    before.rows.map InstanceInformation.uuid = [0, 7] ∧
      after.rows.map InstanceInformation.uuid = [0] ∧
      Moves 692500000000000 ⟨0, 0, 7200000000⟩ before after ∧ total after = fun _ => 5 := by
  have hreset : HasResetRow initial := ⟨counterResetRow, List.mem_singleton_self _, rfl⟩
  obtain ⟨-, htotal, -, -, htouches, -⟩ := housekeeping_conserves initial hreset
    (oneInstance ++ [.housekeeping true 692500000000000 ⟨0, 0, 3600000000⟩])
  obtain ⟨limit, hlimit, hmoves⟩ := htouches.1 oneInstance_works
  cases hlimit
  refine ⟨by decide +kernel, by decide +kernel, hmoves, funext fun c => (htotal c).trans ?_⟩
  cases c <;> decide +kernel

end Promscale.Telemetry
