import Mathlib.Logic.Function.Basic
import Promscale.Lib.Run
import Promscale.Ha.Leases

/-!
# Concurrent calls, statement by statement

Any number of calls on one cluster, each run one statement at a time under READ
COMMITTED: a statement sees what is committed and what its own call has written, and a
write waits for the call that has written the row before it. A call may commit as soon as
it has written, as statements that commit on their own do, or only when it is done, as a
function called in a transaction of its own does.
-/
namespace Promscale.Ha

/-- Where a call stands, that is, which statement it runs next. -/
inductive Pc where
  | findLeader
  | insertFirst
  | findAgain
  | extend
  | recheck
  | takeOver
  | selectState
  | done (leaseState : Lease)
  | returned (leaseState : Lease)
  | raised (e : PgError)
  deriving DecidableEq, Repr

def Call.start : Call → Pc
  | .updateLease .. => .findLeader
  | .tryChangeLeader .. => .takeOver

structure Running where
  call : Call
  pc : Pc
  deriving DecidableEq, Repr

structure World where
  committed : Cluster
  /-- The call that has written the row and not yet committed, and what it sees. -/
  pending : Option (Nat × Cluster)
  calls : Nat → Option Running

namespace World

def init : World := ⟨⟨none, []⟩, none, fun _ => none⟩

def ownsPending (w : World) (id : Nat) : Bool :=
  match w.pending with
  | none => false
  | some (owner, _) => owner = id

/-- What the statements of a call see. -/
def view (w : World) (id : Nat) : Cluster :=
  match w.pending with
  | none => w.committed
  | some (owner, db) => if owner = id then db else w.committed

/-- No other call holds the row. -/
def unlocked (w : World) (id : Nat) : Bool :=
  w.pending.isNone || w.ownsPending id

def goto (w : World) (id : Nat) (call : Call) (pc : Pc) : World :=
  { w with calls := Function.update w.calls id (some ⟨call, pc⟩) }

/-- An error ends the call and takes its write back. -/
def raise (w : World) (id : Nat) (call : Call) (e : PgError) : World :=
  { w.goto id call (.raised e) with pending := if w.ownsPending id then none else w.pending }

/-- A write statement: it finds no row, or waits for the row, or writes it. -/
def write (w : World) (id : Nat) (call : Call) (result : Except PgError (Option Cluster))
    (found notFound : Pc) : Option World :=
  match result with
  | .ok none => some (w.goto id call notFound)
  | .ok (some db) =>
    if w.unlocked id then some { w.goto id call found with pending := some (id, db) } else none
  | .error e => if w.unlocked id then some (w.raise id call e) else none

/-- What `update_lease` does with the leader it has found. -/
def checkLeader (w : World) (id : Nat) (call : Call) (writer : String)
    (newLeaseTimeout leaseRefresh : Int) : World :=
  let found := (w.view id).lease
  if leaderDiffers found writer then w.raise id call leaderHasChanged
  else if refreshDue found newLeaseTimeout leaseRefresh then w.goto id call .extend
  else w.goto id call .selectState

/-- `none` when the insert is skipped on a conflict. -/
def insertFirst (writer : String) (minTime maxTime leaseTimeout : Int) (db : Cluster) :
    Except PgError (Option Cluster) :=
  if db.lease.isSome then .ok none
  else (insertLease writer minTime maxTime leaseTimeout db).map some

/-- The next statement of a call, up to the next look at the tables. -/
def statement (w : World) (id : Nat) (running : Running) : Option World :=
  let call := running.call
  match call, running.pc with
  | .updateLease writer _ maxTime leaseTimeout leaseRefresh, .findLeader =>
    if (w.view id).lease.isNone then some (w.goto id call .insertFirst)
    else some (w.checkLeader id call writer (maxTime + leaseTimeout) leaseRefresh)
  | .updateLease writer minTime maxTime leaseTimeout _, .insertFirst =>
    w.write id call (World.insertFirst writer minTime maxTime leaseTimeout (w.view id))
      .findAgain .findAgain
  | .updateLease writer _ maxTime leaseTimeout leaseRefresh, .findAgain =>
    some (w.checkLeader id call writer (maxTime + leaseTimeout) leaseRefresh)
  | .updateLease writer _ maxTime leaseTimeout leaseRefresh, .extend =>
    w.write id call (extendLease writer (maxTime + leaseTimeout) leaseRefresh (w.view id))
      .selectState .recheck
  | .updateLease writer _ maxTime _ _, .recheck =>
    if leaseLost (w.view id).lease writer maxTime then some (w.raise id call leaderHasChanged)
    else some (w.goto id call .selectState)
  | .tryChangeLeader newLeader maxTime leaseTimeout, .takeOver =>
    w.write id call (Ha.takeOver newLeader maxTime leaseTimeout (w.view id))
      .selectState .selectState
  | _, .selectState =>
    match selectStrict (w.view id) with
    | .ok leaseState => some (w.goto id call (.done leaseState))
    | .error e => some (w.raise id call e)
  | _, _ => none

end World

inductive Event where
  | call (id : Nat) (call : Call)
  | statement (id : Nat)
  | commit (id : Nat)
  | return (id : Nat)
  /-- The transaction of a call is cancelled. -/
  | abort (id : Nat)
  deriving DecidableEq, Repr

def queryCanceled : PgError := ⟨"canceling statement due to user request", "57014"⟩

/-- `none` when the event cannot happen. -/
def World.next (w : World) : Event → Option World
  | .call id call =>
    match w.calls id with
    | none => some (w.goto id call call.start)
    | some _ => none
  | .statement id =>
    match w.calls id with
    | none => none
    | some running => w.statement id running
  | .commit id =>
    match w.pending with
    | none => none
    | some (owner, db) =>
      if owner = id then some { w with committed := db, pending := none } else none
  | .return id =>
    match w.calls id with
    | some ⟨call, .done leaseState⟩ =>
      if w.ownsPending id then none else some (w.goto id call (.returned leaseState))
    | _ => none
  | .abort id =>
    match w.calls id with
    | none => none
    | some ⟨_, .returned _⟩ => none
    | some ⟨call, _⟩ => some (w.raise id call queryCanceled)

end Promscale.Ha
