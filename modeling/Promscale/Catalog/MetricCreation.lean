import Promscale.Catalog.Metrics
import Promscale.Lib.Run

/-!
# Concurrent creation of metrics

Calls of `get_or_create_metric_table_name` and `create_metric_table`, one statement at a
time under READ COMMITTED: a statement sees what is committed and what its own transaction
has written, and an insert waits for a row of another transaction that would be in its way.
-/
namespace Promscale.Catalog

open Promscale.Lib

/-- A row of `_prom_catalog.metric` that is in the table or will be. -/
structure Version where
  metric : Metric
  /-- The open transaction the row is from. -/
  insertedBy : Option Nat
  deriving DecidableEq

/-- Rows that are not committed are in the unique indexes too. -/
def Version.constraints : Constraints Version where
  conflict a b := Metric.constraints.conflict a.metric b.metric
  symm a b := Metric.constraints.symm a.metric b.metric
  check _ := true

inductive CreationCall where
  | getOrCreateMetricTableName (metricName : String)
  | createMetricTable (metricNameArg : String)
  deriving DecidableEq, Repr

def CreationCall.metricName : CreationCall → String
  | .getOrCreateMetricTableName metricName => metricName
  | .createMetricTable metricNameArg => metricNameArg

/-- The next statement of a call; the rounds of the loop are counted from one. -/
inductive CreationPc where
  | find
  | nextval
  | insert (newId round : Nat)
  | select (newId round : Nat)
  | returned (answer : Nat × String)
  | aborted
  deriving DecidableEq, Repr

def CreationPc.ended : CreationPc → Bool
  | .returned _ => true
  | .aborted => true
  | _ => false

def CreationCall.start : CreationCall → CreationPc
  | .getOrCreateMetricTableName _ => .find
  | .createMetricTable _ => .nextval

structure Creating where
  txn : Nat
  call : CreationCall
  pc : CreationPc
  deriving DecidableEq, Repr

structure Creations where
  metric : Table Version Version.constraints
  metricIdSeq : Nat
  calls : List Creating
  /-- The transactions that have ended. -/
  endedTxns : List Nat

namespace Creations

/-- No call has begun; the rows are committed. -/
def ofCatalog (c : Catalog) : Creations where
  metric := {
    rows := c.metric.rows.map (⟨·, none⟩)
    unique := List.pairwise_map.mpr c.metric.unique
    checked := fun _ _ => rfl }
  metricIdSeq := c.metricIdSeq
  calls := []
  endedTxns := []

def sees (txn : Nat) (v : Version) : Bool := v.insertedBy = none || v.insertedBy = some txn

def visible (w : Creations) (txn : Nat) : List Metric :=
  (w.metric.rows.filter (sees txn)).map (·.metric)

/-- The unique indexes, as an insert looks into them. -/
def uniqueIndexes : List (Metric → Metric → Bool) := [
  fun a b => a.id = b.id,
  fun a b => a.metricName = b.metricName && a.tableSchema = b.tableSchema,
  fun a b => a.tableSchema = b.tableSchema && a.tableName = b.tableName]

/-- Whether an insert that is in conflict finds so without waiting for a transaction. -/
def conflictsAtOnce (w : Creations) (txn : Nat) (new : Metric) : Bool :=
  match uniqueIndexes.find? fun conflict => w.metric.rows.any fun v => conflict v.metric new with
  | none => false
  | some conflict => w.metric.rows.any fun v => conflict v.metric new && sees txn v

/-- Of the rows with the name, `SELECT INTO` takes the one the `scan` meets first. -/
def selectByName (w : Creations) (txn : Nat) (metricName : String) (scan : Nat) : Option Metric :=
  let rows := (w.visible txn).filter fun m => m.metricName = metricName
  rows[scan % rows.length]?

def goto (w : Creations) (i : Nat) (r : Creating) (pc : CreationPc) : Creations :=
  { w with calls := w.calls.set i { r with pc := pc } }

/-- The next statement of a call; `none` when it waits, or there is none. -/
def statement (w : Creations) (i : Nat) (r : Creating) (scan : Nat) : Option Creations :=
  match r.pc with
  | .find =>
    match (w.visible r.txn).find? fun m =>
        m.metricName = r.call.metricName && m.tableSchema = promData with
    | some m => some (w.goto i r (.returned (m.id, m.tableName)))
    | none => some (w.goto i r .nextval)
  | .nextval =>
    some { w.goto i r (.insert (w.metricIdSeq + 1) 1) with metricIdSeq := w.metricIdSeq + 1 }
  | .insert newId round =>
    let new := newRawMetric newId r.call.metricName
    match w.metric.insert ⟨new, some r.txn⟩ rfl with
    | some metric => some { w.goto i r (.returned (new.id, new.tableName)) with metric := metric }
    | none => if w.conflictsAtOnce r.txn new then some (w.goto i r (.select newId round)) else none
  | .select newId round =>
    match w.selectByName r.txn r.call.metricName scan with
    | some m => some (w.goto i r (.returned (m.id, m.tableName)))
    | none => some (w.goto i r (.insert newId (round + 1)))
  | _ => none

end Creations

inductive CreationEvent where
  | call (txn : Nat) (call : CreationCall)
  | statement (i scan : Nat)
  | commit (txn : Nat)
  | rollback (txn : Nat)
  deriving DecidableEq, Repr

def commitRow (txn : Nat) (v : Version) : Version :=
  { v with insertedBy := if v.insertedBy = some txn then none else v.insertedBy }

def commitRows (txn : Nat) (t : Table Version Version.constraints) :
    Table Version Version.constraints :=
  t.update (commitRow txn) (fun _ _ => rfl) (fun _ => rfl)

theorem mem_commitRows {txn : Nat} {t : Table Version Version.constraints} {v : Version} :
    v ∈ (commitRows txn t).rows ↔ ∃ old ∈ t.rows, commitRow txn old = v :=
  Table.mem_update _ _ _ _ _

namespace Creations

def busy (w : Creations) (txn : Nat) : Bool := w.calls.any fun r => r.txn = txn && !r.pc.ended

def abortCall (txn : Nat) (r : Creating) : Creating :=
  if r.txn = txn then { r with pc := .aborted } else r

/-- `none` when the event cannot happen. -/
def next (w : Creations) : CreationEvent → Option Creations
  | .call txn call =>
    if txn ∈ w.endedTxns || w.busy txn then none
    else some { w with calls := w.calls ++ [⟨txn, call, call.start⟩] }
  | .statement i scan =>
    match w.calls[i]? with
    | none => none
    | some r => w.statement i r scan
  | .commit txn =>
    if txn ∈ w.endedTxns || w.busy txn then none
    else some { w with
      metric := commitRows txn w.metric
      endedTxns := txn :: w.endedTxns }
  | .rollback txn =>
    if txn ∈ w.endedTxns then none
    else some { w with
      metric := w.metric.delete fun v => v.insertedBy = some txn
      calls := w.calls.map (abortCall txn)
      endedTxns := txn :: w.endedTxns }

def step (w : Creations) (e : CreationEvent) : Creations := (w.next e).getD w

/-! ## Waiting -/

theorem conflict_eq_any (a b : Metric) :
    Metric.constraints.conflict a b = uniqueIndexes.any fun conflict => conflict a b := by
  simp [Metric.constraints, uniqueIndexes, Bool.or_assoc]

/-- An insert waits only for a row that its transaction does not see. -/
theorem exists_unseen_of_waits {w : Creations} {txn : Nat} {new : Metric}
    (hinsert : w.metric.insert ⟨new, some txn⟩ rfl = none)
    (hwaits : w.conflictsAtOnce txn new = false) :
    ∃ v ∈ w.metric.rows, sees txn v = false := by
  obtain ⟨v, hv, hconflict⟩ := (Table.insert_eq_none_iff _ _ _).mp hinsert
  have hconflict : Metric.constraints.conflict v.metric new = true := hconflict
  rw [conflict_eq_any] at hconflict
  obtain ⟨conflict, hindex, hconflict⟩ := List.any_eq_true.mp hconflict
  unfold conflictsAtOnce at hwaits
  split at hwaits
  · rename_i hnone
    have hno := List.find?_eq_none.mp hnone conflict hindex
    exact absurd (List.any_eq_true.mpr ⟨v, hv, hconflict⟩) hno
  · rename_i conflict' hfind
    have hfound := List.find?_some hfind
    obtain ⟨v', hv', hconflict'⟩ := List.any_eq_true.mp hfound
    refine ⟨v', hv', ?_⟩
    have hunseen := List.any_eq_false.mp hwaits v' hv'
    simpa [hconflict'] using hunseen

/-! ## A call alone -/

/-- A call on a catalog with no other call, at one of its statements. -/
def alone (c : Catalog) (metricIdSeq : Nat) (call : CreationCall) (pc : CreationPc) : Creations :=
  { ofCatalog c with metricIdSeq := metricIdSeq, calls := [⟨0, call, pc⟩] }

theorem step_alone (c : Catalog) (metricIdSeq : Nat) (call : CreationCall) (pc : CreationPc) :
    (alone c metricIdSeq call pc).step (.statement 0 0) =
      ((alone c metricIdSeq call pc).statement 0 ⟨0, call, pc⟩ 0).getD
        (alone c metricIdSeq call pc) := rfl

theorem rows_alone (c : Catalog) (metricIdSeq : Nat) (call : CreationCall) (pc : CreationPc) :
    (alone c metricIdSeq call pc).metric.rows = c.metric.rows.map (⟨·, none⟩) := rfl

theorem map_rows_alone (c : Catalog) (metricIdSeq : Nat) (call : CreationCall) (pc : CreationPc) :
    (alone c metricIdSeq call pc).metric.rows.map (·.metric) = c.metric.rows := by
  simp [rows_alone, Function.comp_def]

theorem visible_alone (c : Catalog) (metricIdSeq : Nat) (call : CreationCall) (pc : CreationPc) :
    (alone c metricIdSeq call pc).visible 0 = c.metric.rows := by
  have hsees : (sees 0 ∘ fun m : Metric => (⟨m, none⟩ : Version)) = fun _ => true := rfl
  simp [visible, rows_alone, List.filter_map, hsees, Function.comp_def]

theorem selectByName_alone (c : Catalog) (metricIdSeq : Nat) (call : CreationCall)
    (pc : CreationPc) (metricName : String) :
    (alone c metricIdSeq call pc).selectByName 0 metricName 0 =
      c.metric.rows.find? fun m => m.metricName = metricName := by
  unfold selectByName
  dsimp only
  rw [visible_alone, Nat.zero_mod, ← List.head?_eq_getElem?, List.head?_filter]

theorem insert_alone_none {c : Catalog} {new : Metric} (h : c.metric.insert new rfl = none)
    (metricIdSeq : Nat) (call : CreationCall) (pc : CreationPc) :
    (alone c metricIdSeq call pc).metric.insert ⟨new, some 0⟩ rfl = none ∧
      (alone c metricIdSeq call pc).conflictsAtOnce 0 new = true := by
  obtain ⟨m, hm, hconflict⟩ := (Table.insert_eq_none_iff _ _ _).mp h
  have hinsert : (alone c metricIdSeq call pc).metric.insert ⟨new, some 0⟩ rfl = none :=
    (Table.insert_eq_none_iff _ _ _).mpr ⟨⟨m, none⟩, List.mem_map.mpr ⟨m, hm, rfl⟩, hconflict⟩
  refine ⟨hinsert, ?_⟩
  by_contra hwaits
  obtain ⟨v, hv, hunseen⟩ := exists_unseen_of_waits hinsert (by simpa using hwaits)
  obtain ⟨m', -, rfl⟩ := List.mem_map.mp hv
  cases hunseen

theorem insert_alone_some {c : Catalog} {new : Metric} {metric : Table Metric Metric.constraints}
    (h : c.metric.insert new rfl = some metric) (metricIdSeq : Nat) (call : CreationCall)
    (pc : CreationPc) : ∃ versions,
      (alone c metricIdSeq call pc).metric.insert ⟨new, some 0⟩ rfl = some versions ∧
        versions.rows.map (·.metric) = metric.rows := by
  obtain ⟨hfree, hrows⟩ := (Table.insert_eq_some_iff _ _ _ _).mp h
  cases hinsert : (alone c metricIdSeq call pc).metric.insert ⟨new, some 0⟩ rfl with
  | none =>
    obtain ⟨v, hv, hconflict⟩ := (Table.insert_eq_none_iff _ _ _).mp hinsert
    obtain ⟨m, hm, rfl⟩ := List.mem_map.mp hv
    have hconflict : Metric.constraints.conflict m new = true := hconflict
    rw [hfree m hm] at hconflict
    cases hconflict
  | some versions =>
    refine ⟨versions, rfl, ?_⟩
    rw [((Table.insert_eq_some_iff _ _ _ _).mp hinsert).2, hrows, rows_alone]
    simp [Function.comp_def]

theorem step_find_some {c : Catalog} {metricIdSeq : Nat} {call : CreationCall} {m : Metric}
    (h : c.findMetric call.metricName = some m) :
    (alone c metricIdSeq call .find).step (.statement 0 0) =
      alone c metricIdSeq call (.returned (m.id, m.tableName)) := by
  rw [step_alone]
  simp only [statement, visible_alone]
  rw [← findMetric, h]
  rfl

theorem step_find_none {c : Catalog} {metricIdSeq : Nat} {call : CreationCall}
    (h : c.findMetric call.metricName = none) :
    (alone c metricIdSeq call .find).step (.statement 0 0) =
      alone c metricIdSeq call .nextval := by
  rw [step_alone]
  simp only [statement, visible_alone]
  rw [← findMetric, h]
  rfl

theorem step_nextval (c : Catalog) (metricIdSeq : Nat) (call : CreationCall) :
    (alone c metricIdSeq call .nextval).step (.statement 0 0) =
      alone c (metricIdSeq + 1) call (.insert (metricIdSeq + 1) 1) := rfl

theorem step_insert_some {c : Catalog} {metricIdSeq newId round : Nat} {call : CreationCall}
    {versions : Table Version Version.constraints}
    (h : (alone c metricIdSeq call (.insert newId round)).metric.insert
      ⟨newRawMetric newId call.metricName, some 0⟩ rfl = some versions) :
    (alone c metricIdSeq call (.insert newId round)).step (.statement 0 0) =
      { alone c metricIdSeq call (.returned (newId, pgNameUnique call.metricName (toString newId)))
        with metric := versions } := by
  rw [step_alone]
  simp only [statement, h]
  rfl

theorem step_insert_none {c : Catalog} {metricIdSeq newId round : Nat} {call : CreationCall}
    (h : c.metric.insert (newRawMetric newId call.metricName) rfl = none) :
    (alone c metricIdSeq call (.insert newId round)).step (.statement 0 0) =
      alone c metricIdSeq call (.select newId round) := by
  obtain ⟨hnone, hconflicts⟩ := insert_alone_none h metricIdSeq call (.insert newId round)
  rw [step_alone]
  simp only [statement, hnone, hconflicts]
  rfl

theorem step_select_some {c : Catalog} {metricIdSeq newId round : Nat} {call : CreationCall}
    {m : Metric} (h : (c.metric.rows.find? fun m => m.metricName = call.metricName) = some m) :
    (alone c metricIdSeq call (.select newId round)).step (.statement 0 0) =
      alone c metricIdSeq call (.returned (m.id, m.tableName)) := by
  rw [step_alone]
  simp only [statement, selectByName_alone, h]
  rfl

/-- A call that has ended stays as it is. -/
theorem step_returned {w : Creations} {txn : Nat} {call : CreationCall} {answer : Nat × String}
    (hcalls : w.calls = [⟨txn, call, .returned answer⟩]) : w.step (.statement 0 0) = w := by
  simp [step, next, hcalls, statement]

/-- What a call alone comes to in some statements. -/
def AloneTo (c c' : Catalog) (call : CreationCall) (pc : CreationPc) (answer : Nat × String)
    (statements : Nat) : Prop :=
  ∃ w, (step · (.statement 0 0))^[statements] (alone c c.metricIdSeq call pc) = w ∧
    w.calls = [⟨0, call, .returned answer⟩] ∧ w.metric.rows.map (·.metric) = c'.metric.rows ∧
    w.metricIdSeq = c'.metricIdSeq

theorem createMetricTable_alone (c : Catalog) (call : CreationCall) :
    Ensures (Catalog.createMetricTable call.metricName) c fun answer c' =>
      AloneTo c c' call .nextval answer 3 := by
  unfold Catalog.createMetricTable
  apply Ensures.bind
  apply Ensures.get
  split
  · rename_i metric hinsert
    apply Ensures.bind
    apply Ensures.set
    apply Ensures.bind
    refine (makeMetricTable_relations _ rfl).mono ?_
    rintro _ c' ⟨-, hmetric, hseq, -⟩
    apply Ensures.pure
    obtain ⟨versions, hversions, hrows⟩ := insert_alone_some hinsert (c.metricIdSeq + 1) call
      (.insert (c.metricIdSeq + 1) 1)
    refine ⟨{ alone c (c.metricIdSeq + 1) call (.returned (c.metricIdSeq + 1, _)) with
      metric := versions }, ?_, rfl, by rw [hmetric]; exact hrows, hseq.symm⟩
    simp only [Function.iterate_succ_apply, Function.iterate_zero_apply, step_nextval,
      step_insert_some hversions]
    exact step_returned rfl
  · rename_i hinsert
    split
    · rename_i m hfind
      apply Ensures.bind
      apply Ensures.set
      apply Ensures.pure
      refine ⟨alone c (c.metricIdSeq + 1) call (.returned (m.id, m.tableName)), ?_, rfl,
        map_rows_alone .., rfl⟩
      simp only [Function.iterate_succ_apply, Function.iterate_zero_apply, step_nextval,
        step_insert_none hinsert, step_select_some hfind]
    · exact Ensures.throw

/-- Alone, a call does what the two functions do in the catalog. -/
theorem getOrCreateMetricTableName_alone (c : Catalog) (metricName : String) :
    Ensures (Catalog.getOrCreateMetricTableName metricName) c fun answer c' =>
      AloneTo c c' (.getOrCreateMetricTableName metricName) .find answer 4 := by
  unfold Catalog.getOrCreateMetricTableName
  apply Ensures.bind
  apply Ensures.get
  split
  · rename_i m hfind
    apply Ensures.pure
    have hstep := @step_find_some c c.metricIdSeq (.getOrCreateMetricTableName metricName) m hfind
    refine ⟨alone c c.metricIdSeq _ (.returned (m.id, m.tableName)), ?_, rfl,
      map_rows_alone .., rfl⟩
    have hended := @step_returned (alone c c.metricIdSeq (.getOrCreateMetricTableName metricName)
      (.returned (m.id, m.tableName))) _ _ _ rfl
    simp only [Function.iterate_succ_apply, Function.iterate_zero_apply, hstep, hended]
  · rename_i hfind
    have hstep := @step_find_none c c.metricIdSeq (.getOrCreateMetricTableName metricName) hfind
    refine (createMetricTable_alone c (.getOrCreateMetricTableName metricName)).mono ?_
    rintro answer c' ⟨w, hsteps, hw⟩
    refine ⟨w, ?_, hw⟩
    rw [Function.iterate_succ_apply, hstep]
    exact hsteps

/-! ## A loop that does not end -/

theorem goto_self {w : Creations} {i : Nat} {r : Creating} (hr : w.calls[i]? = some r) :
    w.goto i r r.pc = w := by
  obtain ⟨hi, hget⟩ := List.getElem?_eq_some_iff.mp hr
  subst hget
  change { w with calls := w.calls.set i w.calls[i] } = w
  rw [List.set_getElem_self]

section Loop
variable {w : Creations} {i newId : Nat} {r : Creating} (scan : Nat)
  (hinsert : w.metric.insert ⟨newRawMetric newId r.call.metricName, some r.txn⟩ rfl = none)
  (hconflicts : w.conflictsAtOnce r.txn (newRawMetric newId r.call.metricName) = true)
  (hselect : w.selectByName r.txn r.call.metricName scan = none)
include hinsert hconflicts hselect

theorem goes_round (hi : i < w.calls.length) (round : Nat) :
    ((w.goto i r (.insert newId round)).step (.statement i scan)).step (.statement i scan) =
      w.goto i r (.insert newId (round + 1)) := by
  have hcall : ∀ pc, (w.goto i r pc).calls[i]? = some { r with pc := pc } :=
    fun pc => List.getElem?_set_self hi
  have hgoto : ∀ pc pc', (w.goto i r pc).goto i { r with pc := pc } pc' = w.goto i r pc' := by
    intro pc pc'
    simp [goto]
  have hinserts : (w.goto i r (.insert newId round)).step (.statement i scan) =
      w.goto i r (.select newId round) := by
    have hnone : (w.goto i r (.insert newId round)).metric.insert
        ⟨newRawMetric newId r.call.metricName, some r.txn⟩ rfl = none := hinsert
    have hat : (w.goto i r (.insert newId round)).conflictsAtOnce r.txn
        (newRawMetric newId r.call.metricName) = true := hconflicts
    simp only [step, next, hcall, statement, hnone, hat, if_true, Option.getD_some]
    exact hgoto _ _
  rw [hinserts]
  have hno : (w.goto i r (.select newId round)).selectByName r.txn r.call.metricName scan = none :=
    hselect
  simp only [step, next, hcall, statement, hno, Option.getD_some]
  exact hgoto _ _

/-- As long as nobody else does anything. -/
theorem goes_round_forever (hi : i < w.calls.length) (round n : Nat) :
    (fun w => (step w (.statement i scan)).step (.statement i scan))^[n]
      (w.goto i r (.insert newId round)) = w.goto i r (.insert newId (round + n)) := by
  induction n with
  | zero => rfl
  | succ n ih =>
    rw [Function.iterate_succ_apply', ih]
    exact goes_round scan hinsert hconflicts hselect hi (round + n)

end Loop

end Creations

end Promscale.Catalog
