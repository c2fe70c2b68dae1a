import Promscale.Postgres

/-!
# Leases of highly available writers

`idempotent/004-ha.sql` over the tables of `incremental/009-tables-ha.sql`. Each cluster
has at most one row in `ha_leases`; a trigger logs who led it in `ha_leases_logs`. Every
statement touches the rows of one cluster only, so the tables are split by cluster name.
Times are microseconds; the two settings are arguments, as a call reads them.
-/
namespace Promscale.Ha

def leaderHasChanged : PgError := ⟨"LEADER_HAS_CHANGED", "PS010"⟩

/-- `INTO STRICT` without a row. -/
def noDataFound : PgError := ⟨"query returned no rows", "P0002"⟩

def uniqueViolation : PgError :=
  ⟨"duplicate key value violates unique constraint \"ha_leases_logs_pkey\"", "23505"⟩

/-- A row of `ha_leases`. -/
structure Lease where
  leaderName : String
  leaseStart : Int
  leaseUntil : Int
  deriving DecidableEq, Repr

/-- A row of `ha_leases_logs`; the end is exclusive and NULL while the lease lasts. -/
structure LeaseLog where
  leaderName : String
  leaseStart : Int
  leaseUntil : Option Int
  deriving DecidableEq, Repr

/-- What the two tables hold about one cluster. -/
structure Cluster where
  lease : Option Lease
  logs : List LeaseLog
  deriving DecidableEq, Repr

/-- The `WHERE` of the trigger's update, for the cluster at hand. -/
def LeaseLog.opensLease (row : LeaseLog) (old : Lease) : Bool :=
  row.leaderName = old.leaderName && row.leaseStart = old.leaseStart && row.leaseUntil.isNone

/-- The trigger's update, on one row. -/
def LeaseLog.close (row : LeaseLog) (old : Lease) : LeaseLog :=
  if row.opensLease old then { row with leaseUntil := some old.leaseUntil } else row

/-- The trigger's insert; `(cluster_name, leader_name, lease_start)` is the primary key. -/
def insertLog (logs : List LeaseLog) (new : Lease) : Except PgError (List LeaseLog) :=
  if logs.any fun row => row.leaderName = new.leaderName && row.leaseStart = new.leaseStart then
    .error uniqueViolation
  else .ok (logs ++ [⟨new.leaderName, new.leaseStart, none⟩])

/-- `ha_leases_audit_fn`, run after every insert and update of `ha_leases`. -/
def haLeasesAuditFn (old : Option Lease) (new : Lease) (logs : List LeaseLog) :
    Except PgError (List LeaseLog) :=
  match old with
  | none => insertLog logs new
  | some old =>
    if old.leaderName = new.leaderName then .ok logs
    else insertLog (logs.map (·.close old)) new

/-- An update of the lease row, with its trigger. -/
def writeLease (db : Cluster) (new : Lease) : Except PgError Cluster :=
  match haLeasesAuditFn db.lease new db.logs with
  | .ok logs => .ok ⟨some new, logs⟩
  | .error e => .error e

@[simp] theorem LeaseLog.close_leaderName (row : LeaseLog) (old : Lease) :
    (row.close old).leaderName = row.leaderName := by
  unfold close
  split <;> rfl

@[simp] theorem LeaseLog.close_leaseStart (row : LeaseLog) (old : Lease) :
    (row.close old).leaseStart = row.leaseStart := by
  unfold close
  split <;> rfl

theorem insertLog_eq_ok_iff (logs logs' : List LeaseLog) (new : Lease) :
    insertLog logs new = .ok logs' ↔
      (∀ row ∈ logs, ¬ (row.leaderName = new.leaderName ∧ row.leaseStart = new.leaseStart)) ∧
        logs' = logs ++ [⟨new.leaderName, new.leaseStart, none⟩] := by
  unfold insertLog
  split
  · rename_i h
    simpa using fun hfresh => absurd h (by simpa using hfresh)
  · rename_i h
    constructor
    · intro hok
      cases hok
      exact ⟨by simpa using h, rfl⟩
    · rintro ⟨_, rfl⟩
      rfl

/-- Everything a write of the lease row does when it goes through. -/
theorem writeLease_eq_ok_iff (db db' : Cluster) (new : Lease) :
    writeLease db new = .ok db' ↔
      (db.lease = none ∧ insertLog db.logs new = .ok db'.logs ∧ db'.lease = some new) ∨
      ∃ lease, db.lease = some lease ∧ db'.lease = some new ∧
        ((lease.leaderName = new.leaderName ∧ db'.logs = db.logs) ∨
          (lease.leaderName ≠ new.leaderName ∧
            insertLog (db.logs.map (·.close lease)) new = .ok db'.logs)) := by
  obtain ⟨lease', logs'⟩ := db'
  have hinsert : ∀ logs, (match insertLog logs new with
      | .ok logs => (.ok ⟨some new, logs⟩ : Except PgError Cluster)
      | .error e => .error e) = .ok ⟨lease', logs'⟩ ↔
        insertLog logs new = .ok logs' ∧ lease' = some new := by
    intro logs
    cases insertLog logs new with
    | error e => simp
    | ok logs => simp [and_comm, eq_comm]
  unfold writeLease haLeasesAuditFn
  cases hlease : db.lease with
  | none => simpa using hinsert db.logs
  | some lease =>
    by_cases hleader : lease.leaderName = new.leaderName
    · simp [hleader, and_comm, eq_comm]
    · simpa [hleader, and_comm] using hinsert (db.logs.map (·.close lease))

theorem writeLease_lease {db db' : Cluster} {new : Lease} (h : writeLease db new = .ok db') :
    db'.lease = some new := by
  rcases (writeLease_eq_ok_iff _ _ _).mp h with ⟨_, _, hnew⟩ | ⟨_, _, hnew, _⟩ <;> exact hnew

/-! ## The statements -/

/-- `INSERT INTO ha_leases .. ON CONFLICT DO NOTHING` -/
def insertLease (writer : String) (minTime maxTime leaseTimeout : Int) (db : Cluster) :
    Except PgError Cluster :=
  match db.lease with
  | some _ => .ok db
  | none => writeLease db ⟨writer, minTime, maxTime + leaseTimeout⟩

/-- The `UPDATE` of `update_lease`; `none` when it finds no row. -/
def extendLease (writer : String) (newLeaseTimeout leaseRefresh : Int) (db : Cluster) :
    Except PgError (Option Cluster) :=
  match db.lease with
  | none => .ok none
  | some lease =>
    if lease.leaderName = writer ∧ lease.leaseUntil + leaseRefresh < newLeaseTimeout then
      (writeLease db { lease with leaseUntil := newLeaseTimeout }).map some
    else .ok none

/-- The `UPDATE` of `try_change_leader`. -/
def takeOver (newLeader : String) (maxTime leaseTimeout : Int) (db : Cluster) :
    Except PgError (Option Cluster) :=
  match db.lease with
  | none => .ok none
  | some lease =>
    if lease.leaseUntil ≤ maxTime then
      (writeLease db ⟨newLeader, lease.leaseUntil, maxTime + leaseTimeout⟩).map some
    else .ok none

/-- `SELECT * INTO STRICT lease_state` -/
def selectStrict (db : Cluster) : Except PgError Lease :=
  match db.lease with
  | none => .error noDataFound
  | some lease => .ok lease

/-- `leader <> writer`, which is NULL without a row. -/
def leaderDiffers (found : Option Lease) (writer : String) : Bool :=
  match found with
  | none => false
  | some lease => lease.leaderName ≠ writer

/-- `new_lease_timeout > lease_until + lease_refresh` -/
def refreshDue (found : Option Lease) (newLeaseTimeout leaseRefresh : Int) : Bool :=
  match found with
  | none => false
  | some lease => newLeaseTimeout > lease.leaseUntil + leaseRefresh

/-- `leader <> writer OR lease_until <= max_time` -/
def leaseLost (found : Option Lease) (writer : String) (maxTime : Int) : Bool :=
  match found with
  | none => false
  | some lease => lease.leaderName ≠ writer || lease.leaseUntil ≤ maxTime

theorem insertLease_effect {writer : String} {minTime maxTime leaseTimeout : Int}
    {db db' : Cluster} (h : insertLease writer minTime maxTime leaseTimeout db = .ok db') :
    (db.lease.isSome ∧ db' = db) ∨
      (db.lease = none ∧ writeLease db ⟨writer, minTime, maxTime + leaseTimeout⟩ = .ok db') := by
  unfold insertLease at h
  split at h
  · rename_i lease hlease
    cases h
    exact .inl ⟨by simp [hlease], rfl⟩
  · rename_i hnone
    exact .inr ⟨hnone, h⟩

/-- A renewal keeps the leader and the start of the lease. -/
theorem extendLease_effect {writer : String} {newLeaseTimeout leaseRefresh : Int}
    {db db' : Cluster} (h : extendLease writer newLeaseTimeout leaseRefresh db = .ok (some db')) :
    ∃ lease, db.lease = some lease ∧ lease.leaderName = writer ∧
      lease.leaseUntil + leaseRefresh < newLeaseTimeout ∧
      db' = ⟨some { lease with leaseUntil := newLeaseTimeout }, db.logs⟩ := by
  unfold extendLease at h
  split at h
  · cases h
  · rename_i lease hlease
    split at h
    · rename_i hwhere
      have hwrite : writeLease db { lease with leaseUntil := newLeaseTimeout } =
          .ok ⟨some { lease with leaseUntil := newLeaseTimeout }, db.logs⟩ :=
        (writeLease_eq_ok_iff _ _ _).mpr (.inr ⟨lease, hlease, rfl, .inl ⟨rfl, rfl⟩⟩)
      rw [hwrite] at h
      cases h
      exact ⟨lease, hlease, hwhere.1, hwhere.2, rfl⟩
    · cases h

/-- What a takeover does when it goes through. -/
theorem takeOver_effect {newLeader : String} {maxTime leaseTimeout : Int} {db db' : Cluster}
    (h : takeOver newLeader maxTime leaseTimeout db = .ok (some db')) :
    ∃ lease, db.lease = some lease ∧ lease.leaseUntil ≤ maxTime ∧
      writeLease db ⟨newLeader, lease.leaseUntil, maxTime + leaseTimeout⟩ = .ok db' := by
  unfold takeOver at h
  split at h
  · cases h
  · rename_i lease hlease
    split at h
    · rename_i hexpired
      refine ⟨lease, hlease, hexpired, ?_⟩
      cases hwrite : writeLease db ⟨newLeader, lease.leaseUntil, maxTime + leaseTimeout⟩ with
      | error e =>
        rw [hwrite] at h
        cases h
      | ok after =>
        rw [hwrite] at h
        cases h
        rfl
    · cases h

/-! ## The functions, each run without interruption -/

/-- The first lookup, and the insert of the very first call. -/
def findOrInsertLease (writer : String) (minTime maxTime leaseTimeout : Int) (db : Cluster) :
    Except PgError Cluster :=
  if db.lease.isNone then insertLease writer minTime maxTime leaseTimeout db else .ok db

/-- The check of the leader, the update when it is due, and the second look after it
found no row. -/
def refreshLease (writer : String) (maxTime newLeaseTimeout leaseRefresh : Int) (db : Cluster) :
    Except PgError Cluster :=
  if leaderDiffers db.lease writer then .error leaderHasChanged
  else if refreshDue db.lease newLeaseTimeout leaseRefresh then
    match extendLease writer newLeaseTimeout leaseRefresh db with
    | .error e => .error e
    | .ok (some db) => .ok db
    | .ok none => if leaseLost db.lease writer maxTime then .error leaderHasChanged else .ok db
  else .ok db

def updateLease (writer : String) (minTime maxTime leaseTimeout leaseRefresh : Int)
    (db : Cluster) : Except PgError (Cluster × Lease) := do
  let db ← findOrInsertLease writer minTime maxTime leaseTimeout db
  let db ← refreshLease writer maxTime (maxTime + leaseTimeout) leaseRefresh db
  let leaseState ← selectStrict db
  .ok (db, leaseState)

def tryChangeLeader (newLeader : String) (maxTime leaseTimeout : Int) (db : Cluster) :
    Except PgError (Cluster × Lease) := do
  let found ← takeOver newLeader maxTime leaseTimeout db
  let db := found.getD db
  let leaseState ← selectStrict db
  .ok (db, leaseState)

/-- A call of one of the two functions, with the settings it reads. -/
inductive Call where
  | updateLease (writer : String) (minTime maxTime leaseTimeout leaseRefresh : Int)
  | tryChangeLeader (newLeader : String) (maxTime leaseTimeout : Int)
  deriving DecidableEq, Repr

def Call.run (call : Call) (db : Cluster) : Except PgError (Cluster × Lease) :=
  match call with
  | .updateLease writer minTime maxTime leaseTimeout leaseRefresh =>
    Ha.updateLease writer minTime maxTime leaseTimeout leaseRefresh db
  | .tryChangeLeader newLeader maxTime leaseTimeout =>
    Ha.tryChangeLeader newLeader maxTime leaseTimeout db

/-- An error rolls the call back. -/
def Call.apply (db : Cluster) (call : Call) : Cluster :=
  match call.run db with
  | .ok (db, _) => db
  | .error _ => db

end Promscale.Ha
