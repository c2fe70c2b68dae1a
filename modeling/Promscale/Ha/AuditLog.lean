import Mathlib.Data.List.Pairwise
import Mathlib.Logic.Function.Basic
import Promscale.Lib.Fallible
import Promscale.Lib.Run
import Promscale.Ha.Leases

/-!
# The log of leases

The trigger closes the open row of the old leader by its `lease_start`. A leader that
takes over from itself moves `lease_start` without a word to the log, so the next
takeover by another writer finds no row to close. Runs without such a takeover, and only
they, keep a log that tells for every instant who led.
-/
namespace Promscale.Ha

open Promscale.Lib

/-- The instants of the interval `[lease_start, lease_until)` of a row. -/
def LeaseLog.Covers (row : LeaseLog) (t : Int) : Prop :=
  row.leaseStart ≤ t ∧ ∀ u, row.leaseUntil = some u → t < u

/-- The log of a cluster led by `leader`: one open row, which names the leader, and
intervals that follow one another without a gap or an overlap. -/
structure LogFollows (logs : List LeaseLog) (leader : String) : Prop where
  one_open : ∃ row, logs.filter (·.leaseUntil.isNone) = [row] ∧ row.leaderName = leader
  contiguous : ∀ row ∈ logs, ∀ u, row.leaseUntil = some u →
    row.leaseStart ≤ u ∧ ∃ next ∈ logs, next.leaseStart = u
  disjoint : logs.Pairwise fun row other => ∀ t, ¬ (row.Covers t ∧ other.Covers t)
  covered : ∀ row ∈ logs, ∀ t, row.leaseStart ≤ t → ∃ other ∈ logs, other.Covers t

def Cluster.LogKept (db : Cluster) : Prop :=
  match db.lease with
  | none => db.logs = []
  | some lease => LogFollows db.logs lease.leaderName

/-- The call makes a writer other than the leader of an expired lease the new leader. -/
def Call.ReplacesLeader (db : Cluster) (call : Call) (lease : Lease) (newLeader : String) : Prop :=
  db.lease = some lease ∧ (∃ maxTime leaseTimeout,
      call = .tryChangeLeader newLeader maxTime leaseTimeout ∧ lease.leaseUntil ≤ maxTime) ∧
    lease.leaderName ≠ newLeader ∧
    ∀ row ∈ db.logs, ¬ (row.leaderName = newLeader ∧ row.leaseStart = lease.leaseUntil)

/-- Who replaces a leader finds the row of its lease open in the log, and the lease not
ending before it starts. -/
def Call.FindsOpenRow (db : Cluster) (call : Call) : Prop :=
  ∀ lease newLeader, call.ReplacesLeader db lease newLeader →
    (∃ row ∈ db.logs, row.opensLease lease = true) ∧ lease.leaseStart ≤ lease.leaseUntil

/-! ## What a call can do -/

/-- Everything a call can do to a cluster. -/
inductive Call.Effect (db : Cluster) (call : Call) : Cluster → Prop
  | unchanged : Effect db call db
  | first (writer : String) (leaseStart leaseUntil : Int) (hnone : db.lease = none) :
      Effect db call ⟨some ⟨writer, leaseStart, leaseUntil⟩, db.logs ++ [⟨writer, leaseStart, none⟩]⟩
  | kept (lease : Lease) (leaseStart leaseUntil : Int) (hsome : db.lease = some lease) :
      Effect db call ⟨some ⟨lease.leaderName, leaseStart, leaseUntil⟩, db.logs⟩
  | replaced (lease : Lease) (newLeader : String) (leaseUntil : Int)
      (hreplaces : call.ReplacesLeader db lease newLeader) :
      Effect db call ⟨some ⟨newLeader, lease.leaseUntil, leaseUntil⟩,
        db.logs.map (·.close lease) ++ [⟨newLeader, lease.leaseUntil, none⟩]⟩

/-- A renewal or the first insert, as far as `update_lease` goes. -/
theorem updateLease_effect {writer : String} {minTime maxTime leaseTimeout leaseRefresh : Int}
    {db db' : Cluster} {state : Lease}
    (h : updateLease writer minTime maxTime leaseTimeout leaseRefresh db = .ok (db', state)) :
    (∃ leaseStart leaseUntil, db.lease = none ∧
        insertLog db.logs ⟨writer, leaseStart, leaseUntil⟩ = .ok db'.logs ∧
        db'.lease = some ⟨writer, leaseStart, leaseUntil⟩) ∨
      ∃ lease leaseUntil, db.lease = some lease ∧
        db' = ⟨some { lease with leaseUntil }, db.logs⟩ := by
  obtain ⟨found, hfound, h⟩ := bind_eq_ok h
  obtain ⟨refreshed, hrefreshed, h⟩ := bind_eq_ok h
  obtain ⟨state, hstate, h⟩ := bind_eq_ok h
  cases h
  -- renewing only moves the end of the lease found
  have hrenew : ∀ lease, found.lease = some lease →
      ∃ leaseUntil, db' = ⟨some { lease with leaseUntil }, found.logs⟩ := by
    intro lease hlease
    have hself : found = ⟨some { lease with leaseUntil := lease.leaseUntil }, found.logs⟩ := by
      rw [show { lease with leaseUntil := lease.leaseUntil } = lease from rfl, ← hlease]
    unfold refreshLease at hrefreshed
    split at hrefreshed
    · cases hrefreshed
    · split at hrefreshed
      · split at hrefreshed
        · cases hrefreshed
        · rename_i after hextend
          cases hrefreshed
          obtain ⟨old, hold, _, _, rfl⟩ := extendLease_effect hextend
          rw [hlease] at hold
          cases hold
          exact ⟨_, rfl⟩
        · split at hrefreshed
          · cases hrefreshed
          · cases hrefreshed
            exact ⟨_, hself⟩
      · cases hrefreshed
        exact ⟨_, hself⟩
  unfold findOrInsertLease at hfound
  split at hfound
  · rename_i hnone
    rcases insertLease_effect hfound with ⟨hsome, _⟩ | ⟨_, hwrite⟩
    · rw [Option.isNone_iff_eq_none.mp hnone] at hsome
      cases hsome
    · rcases (writeLease_eq_ok_iff _ _ _).mp hwrite with ⟨hnone, hlogs, hlease⟩ | ⟨lease, hsome, _⟩
      · obtain ⟨leaseUntil, rfl⟩ := hrenew _ hlease
        exact .inl ⟨minTime, leaseUntil, hnone, hlogs, rfl⟩
      · rw [hsome] at hnone
        cases hnone
  · rename_i hsome
    cases hfound
    cases hlease : db.lease with
    | none => simp [hlease] at hsome
    | some lease =>
      obtain ⟨leaseUntil, h⟩ := hrenew lease hlease
      exact .inr ⟨lease, leaseUntil, rfl, h⟩

/-- A call that goes through and replaces the leader. -/
theorem Call.apply_of_replaces {db : Cluster} {call : Call} {lease : Lease} {newLeader : String}
    (h : call.ReplacesLeader db lease newLeader) :
    ∃ leaseUntil, call.apply db = ⟨some ⟨newLeader, lease.leaseUntil, leaseUntil⟩,
      db.logs.map (·.close lease) ++ [⟨newLeader, lease.leaseUntil, none⟩]⟩ := by
  obtain ⟨hlease, ⟨maxTime, leaseTimeout, rfl, hexpired⟩, hother, hfresh⟩ := h
  have hinsert : insertLog (db.logs.map (·.close lease))
      ⟨newLeader, lease.leaseUntil, maxTime + leaseTimeout⟩ =
        .ok (db.logs.map (·.close lease) ++ [⟨newLeader, lease.leaseUntil, none⟩]) := by
    rw [insertLog_eq_ok_iff]
    refine ⟨?_, rfl⟩
    intro row hrow
    obtain ⟨logged, hlogged, rfl⟩ := List.mem_map.mp hrow
    simpa using hfresh logged hlogged
  have hwrite : writeLease db ⟨newLeader, lease.leaseUntil, maxTime + leaseTimeout⟩ =
      .ok ⟨some ⟨newLeader, lease.leaseUntil, maxTime + leaseTimeout⟩,
        db.logs.map (·.close lease) ++ [⟨newLeader, lease.leaseUntil, none⟩]⟩ :=
    (writeLease_eq_ok_iff _ _ _).mpr (.inr ⟨lease, hlease, rfl, .inr ⟨hother, hinsert⟩⟩)
  refine ⟨maxTime + leaseTimeout, ?_⟩
  simp [apply, run, Ha.tryChangeLeader, takeOver, hlease, hexpired, hwrite, Except.map,
    selectStrict, bind, Except.bind]

theorem Call.apply_effect (db : Cluster) (call : Call) : call.Effect db (call.apply db) := by
  unfold apply
  split
  · rename_i db' state hrun
    cases call with
    | updateLease writer minTime maxTime leaseTimeout leaseRefresh =>
      rcases updateLease_effect hrun with ⟨start, until', hnone, hlogs, hlease⟩ |
        ⟨lease, until', hlease, rfl⟩
      · obtain ⟨_, hlogs⟩ := (insertLog_eq_ok_iff _ _ _).mp hlogs
        have : db' = ⟨some ⟨writer, start, until'⟩, db.logs ++ [⟨writer, start, none⟩]⟩ := by
          rw [← hlease, ← hlogs]
        rw [this]
        exact .first writer start until' hnone
      · exact .kept lease lease.leaseStart until' hlease
    | tryChangeLeader newLeader maxTime leaseTimeout =>
      obtain ⟨found, htake, h⟩ := bind_eq_ok hrun
      obtain ⟨state, _, h⟩ := bind_eq_ok h
      cases h
      cases found with
      | none => exact .unchanged
      | some after =>
        obtain ⟨lease, hlease, hexpired, hwrite⟩ := takeOver_effect htake
        rcases (writeLease_eq_ok_iff _ _ _).mp hwrite with ⟨hnone, _⟩ |
          ⟨old, hold, hnew, ⟨hsame, hlogs⟩ | ⟨hother, hlogs⟩⟩
        · rw [hlease] at hnone
          cases hnone
        · rw [hlease] at hold
          cases hold
          have : after = ⟨some ⟨lease.leaderName, lease.leaseUntil, maxTime + leaseTimeout⟩,
              db.logs⟩ := by
            rw [hsame, ← hnew, ← hlogs]
          rw [Option.getD_some, this]
          exact .kept lease _ _ hlease
        · rw [hlease] at hold
          cases hold
          obtain ⟨hfresh, hlogs⟩ := (insertLog_eq_ok_iff _ _ _).mp hlogs
          have : after = ⟨some ⟨newLeader, lease.leaseUntil, maxTime + leaseTimeout⟩,
              db.logs.map (·.close lease) ++ [⟨newLeader, lease.leaseUntil, none⟩]⟩ := by
            rw [← hnew, ← hlogs]
          rw [Option.getD_some, this]
          refine .replaced lease newLeader _ ⟨hlease, ⟨_, _, rfl, hexpired⟩, hother, ?_⟩
          intro row hrow
          simpa using hfresh _ (List.mem_map_of_mem hrow)
  · exact .unchanged

/-! ## What a call does to the log -/

/-- A log of one open row. -/
theorem logFollows_singleton (leader : String) (leaseStart : Int) :
    LogFollows [⟨leader, leaseStart, none⟩] leader where
  one_open := ⟨_, rfl, rfl⟩
  contiguous := by simp
  disjoint := by simp
  covered := by
    intro row hrow t ht
    refine ⟨row, hrow, ht, ?_⟩
    rw [List.mem_singleton.mp hrow]
    simp

/-- The open row of a log is the only one the trigger can close. -/
theorem LogFollows.opensLease_iff {logs : List LeaseLog} {lease : Lease}
    (h : LogFollows logs lease.leaderName) {found : LeaseLog} (hfound : found ∈ logs)
    (hopens : found.opensLease lease = true) (row : LeaseLog) (hrow : row ∈ logs) :
    row.opensLease lease = row.leaseUntil.isNone := by
  obtain ⟨only, honly, _⟩ := h.one_open
  have hunique : ∀ row ∈ logs, row.leaseUntil.isNone → row = only := by
    intro row hrow hopen
    have : row ∈ logs.filter (·.leaseUntil.isNone) := List.mem_filter.mpr ⟨hrow, hopen⟩
    rw [honly] at this
    exact List.mem_singleton.mp this
  have hfoundOpen : found.leaseUntil.isNone := by
    unfold LeaseLog.opensLease at hopens
    simp only [Bool.and_eq_true] at hopens
    exact hopens.2
  cases hopen : row.leaseUntil.isNone with
  | true => rw [hunique row hrow hopen, ← hunique found hfound hfoundOpen, hopens]
  | false => simp [LeaseLog.opensLease, hopen]

section Replacing
variable {logs : List LeaseLog} {lease : Lease} (h : LogFollows logs lease.leaderName)
  {found : LeaseLog} (hfound : found ∈ logs) (hopens : found.opensLease lease = true)
include h hfound hopens

/-- The open row starts where the lease does. -/
theorem LogFollows.start_of_open {row : LeaseLog} (hrow : row ∈ logs) (hnone : row.leaseUntil = none) :
    row.leaseStart = lease.leaseStart := by
  have hrowOpens : row.opensLease lease = true := by
    rw [h.opensLease_iff hfound hopens row hrow, hnone]
    rfl
  unfold LeaseLog.opensLease at hrowOpens
  simp only [Bool.and_eq_true, decide_eq_true_eq] at hrowOpens
  exact hrowOpens.1.2

theorem LogFollows.close_open {row : LeaseLog} (hrow : row ∈ logs) (hnone : row.leaseUntil = none) :
    (row.close lease).leaseUntil = some lease.leaseUntil := by
  unfold LeaseLog.close
  rw [if_pos]
  rw [h.opensLease_iff hfound hopens row hrow, hnone]
  rfl

theorem LogFollows.close_closed {row : LeaseLog} (hrow : row ∈ logs) {u : Int}
    (hu : row.leaseUntil = some u) : row.close lease = row := by
  unfold LeaseLog.close
  rw [if_neg]
  rw [h.opensLease_iff hfound hopens row hrow, hu]
  simp

/-- Closing takes instants from a row, and none before the end of the lease. -/
theorem LogFollows.covers_of_close {row : LeaseLog} (hrow : row ∈ logs) {t : Int}
    (ht : (row.close lease).Covers t) :
    row.Covers t ∧ (row.leaseUntil = none → t < lease.leaseUntil) := by
  cases hu : row.leaseUntil with
  | none =>
    have hend := h.close_open hfound hopens hrow hu
    exact ⟨⟨by simpa using ht.1, by simp [hu]⟩, fun _ => ht.2 _ hend⟩
  | some u =>
    rw [h.close_closed hfound hopens hrow hu] at ht
    exact ⟨ht, by simp⟩

theorem LogFollows.filter_close :
    (logs.map (·.close lease)).filter (·.leaseUntil.isNone) = [] := by
  rw [List.filter_eq_nil_iff]
  intro row hrow
  obtain ⟨logged, hlogged, rfl⟩ := List.mem_map.mp hrow
  cases hu : logged.leaseUntil with
  | none => simp [h.close_open hfound hopens hlogged hu]
  | some u => simp [h.close_closed hfound hopens hlogged hu, hu]

/-- What was closed meets a row of the log or the end of the lease. -/
theorem LogFollows.close_contiguous (hproper : lease.leaseStart ≤ lease.leaseUntil) {row : LeaseLog}
    (hrow : row ∈ logs) {u : Int} (hu : (row.close lease).leaseUntil = some u) :
    (row.close lease).leaseStart ≤ u ∧
      ((∃ next ∈ logs, (next.close lease).leaseStart = u) ∨ lease.leaseUntil = u) := by
  rw [LeaseLog.close_leaseStart]
  cases hold : row.leaseUntil with
  | none =>
    rw [h.close_open hfound hopens hrow hold] at hu
    cases hu
    rw [h.start_of_open hfound hopens hrow hold]
    exact ⟨hproper, .inr rfl⟩
  | some v =>
    rw [h.close_closed hfound hopens hrow hold] at hu
    obtain ⟨hle, next, hnext, hmeet⟩ := h.contiguous row hrow u hu
    exact ⟨hle, .inl ⟨next, hnext, by simpa using hmeet⟩⟩

/-- Past the end of the lease only the open row covered anything. -/
theorem LogFollows.close_ends {row : LeaseLog} (hrow : row ∈ logs) {t : Int}
    (ht : (row.close lease).Covers t) (hproper : lease.leaseStart ≤ lease.leaseUntil) :
    t < lease.leaseUntil := by
  obtain ⟨only, honly, -⟩ := h.one_open
  have honlyMem : only ∈ logs ∧ only.leaseUntil = none := by
    have hfilter : only ∈ logs.filter (·.leaseUntil.isNone) := by
      rw [honly]
      exact List.mem_singleton_self _
    simpa using List.mem_filter.mp hfilter
  obtain ⟨hcovers, hbefore⟩ := h.covers_of_close hfound hopens hrow ht
  by_contra hend
  have hstart := h.start_of_open hfound hopens honlyMem.1 honlyMem.2
  have honlyCovers : only.Covers t := ⟨by omega, by simp [honlyMem.2]⟩
  have hne : row ≠ only := by
    intro heq
    subst heq
    exact hend (hbefore honlyMem.2)
  have hsymm : Std.Symm fun row other : LeaseLog => ∀ t, ¬ (row.Covers t ∧ other.Covers t) :=
    ⟨fun _ _ hab t hba => hab t hba.symm⟩
  exact h.disjoint.forall hrow honlyMem.1 hne t ⟨hcovers, honlyCovers⟩

/-- What was covered before the end of the lease still is. -/
theorem LogFollows.close_covered {t : Int} (hbefore : t < lease.leaseUntil) {row : LeaseLog}
    (hrow : row ∈ logs) (ht : row.leaseStart ≤ t) :
    ∃ other ∈ logs, (other.close lease).Covers t := by
  obtain ⟨other, hother, hcover⟩ := h.covered row hrow t ht
  refine ⟨other, hother, by simpa using hcover.1, ?_⟩
  intro u hu
  cases hold : other.leaseUntil with
  | none =>
    rw [h.close_open hfound hopens hother hold] at hu
    cases hu
    exact hbefore
  | some v =>
    rw [h.close_closed hfound hopens hother hold] at hu
    exact hcover.2 u hu

/-- Closing the open row at `u` and opening one at `u` for the next leader. -/
theorem LogFollows.replace (newLeader : String) (hproper : lease.leaseStart ≤ lease.leaseUntil) :
    LogFollows (logs.map (·.close lease) ++ [⟨newLeader, lease.leaseUntil, none⟩]) newLeader where
  one_open := by
    refine ⟨⟨newLeader, lease.leaseUntil, none⟩, ?_, rfl⟩
    rw [List.filter_append, h.filter_close hfound hopens]
    rfl
  contiguous := by
    intro row hrow u hu
    rcases List.mem_append.mp hrow with hrow | hrow
    · obtain ⟨logged, hlogged, rfl⟩ := List.mem_map.mp hrow
      obtain ⟨hle, ⟨next, hnext, hmeet⟩ | hend⟩ :=
        h.close_contiguous hfound hopens hproper hlogged hu
      · exact ⟨hle, next.close lease, List.mem_append_left _ (List.mem_map_of_mem hnext), hmeet⟩
      · exact ⟨hle, _, List.mem_append_right _ (List.mem_singleton_self _), hend⟩
    · rw [List.mem_singleton.mp hrow] at hu
      cases hu
  disjoint := by
    rw [List.pairwise_append]
    refine ⟨?_, List.pairwise_singleton _ _, ?_⟩
    · rw [List.pairwise_map]
      refine h.disjoint.imp_of_mem ?_
      intro row other hrow hother hdisjoint t ⟨ht, ht'⟩
      exact hdisjoint t ⟨(h.covers_of_close hfound hopens hrow ht).1,
        (h.covers_of_close hfound hopens hother ht').1⟩
    · intro row hrow new hnew t ⟨ht, hnewCovers⟩
      rw [List.mem_singleton.mp hnew] at hnewCovers
      obtain ⟨logged, hlogged, rfl⟩ := List.mem_map.mp hrow
      have hlt := h.close_ends hfound hopens hlogged ht hproper
      have hle : lease.leaseUntil ≤ t := hnewCovers.1
      omega
  covered := by
    intro row hrow t ht
    by_cases hafter : lease.leaseUntil ≤ t
    · exact ⟨_, List.mem_append_right _ (List.mem_singleton_self _), hafter, by simp⟩
    · rcases List.mem_append.mp hrow with hrow | hrow
      · obtain ⟨logged, hlogged, rfl⟩ := List.mem_map.mp hrow
        rw [LeaseLog.close_leaseStart] at ht
        obtain ⟨other, hother, hcover⟩ :=
          h.close_covered hfound hopens (by omega) hlogged ht
        exact ⟨_, List.mem_append_left _ (List.mem_map_of_mem hother), hcover⟩
      · rw [List.mem_singleton.mp hrow] at ht
        exact absurd ht hafter

end Replacing

/-- A replaced leader whose row stayed open leaves two open rows; one whose lease ended
before it started leaves no interval. -/
theorem LogFollows.of_replace {logs : List LeaseLog} {lease : Lease} {newLeader : String}
    (h : LogFollows logs lease.leaderName)
    (h' : LogFollows (logs.map (·.close lease) ++ [⟨newLeader, lease.leaseUntil, none⟩]) newLeader) :
    (∃ row ∈ logs, row.opensLease lease = true) ∧ lease.leaseStart ≤ lease.leaseUntil := by
  obtain ⟨only, honly, _⟩ := h.one_open
  have honlyMem : only ∈ logs ∧ only.leaseUntil = none := by
    have : only ∈ logs.filter (·.leaseUntil.isNone) := by rw [honly]; exact List.mem_singleton_self _
    simpa using List.mem_filter.mp this
  have hclosed : (logs.map (·.close lease)).filter (·.leaseUntil.isNone) = [] := by
    obtain ⟨row, hrow, _⟩ := h'.one_open
    rw [List.filter_append] at hrow
    have hlen := congrArg List.length hrow
    rw [List.length_append] at hlen
    exact List.eq_nil_of_length_eq_zero (by simpa using hlen)
  have hopens : only.opensLease lease = true := by
    by_contra hopen
    have hnone := List.filter_eq_nil_iff.mp hclosed (only.close lease)
      (List.mem_map_of_mem honlyMem.1)
    unfold LeaseLog.close at hnone
    rw [if_neg hopen, honlyMem.2] at hnone
    exact hnone rfl
  have huntil : (only.close lease).leaseUntil = some lease.leaseUntil := by
    unfold LeaseLog.close
    rw [if_pos hopens]
  refine ⟨⟨only, honlyMem.1, hopens⟩, ?_⟩
  have hle := (h'.contiguous (only.close lease)
    (List.mem_append_left _ (List.mem_map_of_mem honlyMem.1)) _ huntil).1
  unfold LeaseLog.opensLease at hopens
  simp only [Bool.and_eq_true, decide_eq_true_eq] at hopens
  rw [LeaseLog.close_leaseStart] at hle
  omega

/-- Step lemma: a call keeps the log exactly when it finds the row it has to close. -/
theorem Call.apply_logKept_iff (db : Cluster) (call : Call) (h : db.LogKept) :
    (call.apply db).LogKept ↔ call.FindsOpenRow db := by
  have hcases := call.apply_effect db
  by_cases hreplaces : ∃ lease newLeader, call.ReplacesLeader db lease newLeader
  · obtain ⟨lease, newLeader, hrep⟩ := hreplaces
    obtain ⟨leaseUntil, happly⟩ := call.apply_of_replaces hrep
    unfold Cluster.LogKept at h
    rw [hrep.1] at h
    rw [happly]
    constructor
    · intro hkept lease' newLeader' hrep'
      have : lease' = lease := Option.some.inj (hrep'.1.symm.trans hrep.1)
      subst this
      exact LogFollows.of_replace h hkept
    · intro hfinds
      obtain ⟨⟨row, hrow, hopens⟩, hproper⟩ := hfinds lease newLeader hrep
      exact LogFollows.replace h hrow hopens newLeader hproper
  · have hfinds : call.FindsOpenRow db := fun lease newLeader hrep =>
      absurd ⟨lease, newLeader, hrep⟩ hreplaces
    refine ⟨fun _ => hfinds, fun _ => ?_⟩
    generalize call.apply db = after at hcases
    unfold Cluster.LogKept at h
    cases hcases with
    | unchanged => exact h
    | first writer leaseStart leaseUntil hnone =>
      rw [hnone] at h
      change LogFollows _ writer
      rw [show db.logs = [] from h]
      exact logFollows_singleton writer leaseStart
    | kept lease leaseStart leaseUntil hsome =>
      rw [hsome] at h
      exact h
    | replaced lease newLeader leaseUntil hrep => exact absurd ⟨lease, newLeader, hrep⟩ hreplaces

/-! ## Runs over all clusters -/

/-- The two tables, by cluster name. -/
abbrev HaTables := String → Cluster

/-- No lease was ever taken. -/
def HaTables.empty : HaTables := fun _ => ⟨none, []⟩

/-- A call for a cluster. -/
def HaTables.call (tables : HaTables) (call : String × Call) : HaTables :=
  Function.update tables call.1 (call.2.apply (tables call.1))

/-- Over every sequence of calls, the log of every cluster has exactly one open row, which
names the leader, and intervals without gap or overlap, exactly when whoever replaced a
leader found the row of its lease open. -/
theorem logKept_iff_findsOpenRow (calls : List (String × Call)) :
    AllStates HaTables.call (fun tables => ∀ cluster, (tables cluster).LogKept) .empty calls ↔
      AllSteps HaTables.call (fun tables call => call.2.FindsOpenRow (tables call.1)) .empty
        calls := by
  refine allStates_iff_allSteps (fun _ => True) (fun _ _ _ => trivial) ?_ trivial (fun _ => rfl) calls
  · rintro tables ⟨cluster, call⟩ - hkept
    rw [← call.apply_logKept_iff (tables cluster) (hkept cluster)]
    constructor
    · intro h
      have := h cluster
      rwa [HaTables.call, Function.update_self] at this
    · intro h other
      by_cases heq : other = cluster
      · rw [heq, HaTables.call, Function.update_self]
        exact h
      · rw [HaTables.call, Function.update_of_ne heq]
        exact hkept other

/-- A positive timeout, and a time range that is one. -/
def Call.Valid : Call → Prop
  | .updateLease _ minTime maxTime leaseTimeout _ => 0 < leaseTimeout ∧ minTime ≤ maxTime
  | .tryChangeLeader _ _ leaseTimeout => 0 < leaseTimeout

/-- A minute's lease that its leader takes over from itself before another writer does. -/
def selfTakeover : List (String × Call) :=
  [("cluster", .updateLease "a" 0 0 60000000 10000000),
    ("cluster", .tryChangeLeader "a" 70000000 60000000),
    ("cluster", .tryChangeLeader "b" 140000000 60000000)]

/-- After it the log has two open rows. -/
theorem selfTakeover_breaks_log :
    ¬ ∀ calls : List (String × Call), (∀ call ∈ calls, call.2.Valid) →
      AllStates HaTables.call (fun tables => ∀ cluster, (tables cluster).LogKept) .empty calls := by
  intro h
  have hvalid : ∀ call ∈ selfTakeover, call.2.Valid := by
    simp [selfTakeover, Call.Valid]
  have hkept := (h selfTakeover hvalid).last "cluster"
  have hfinal : selfTakeover.foldl HaTables.call .empty "cluster" =
      ⟨some ⟨"b", 130000000, 200000000⟩, [⟨"a", 0, none⟩, ⟨"b", 130000000, none⟩]⟩ := by decide
  rw [hfinal] at hkept
  obtain ⟨row, hopen, _⟩ := hkept.one_open
  simp at hopen

end Promscale.Ha
