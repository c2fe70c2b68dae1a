import Promscale.Catalog.Operations
import Promscale.Catalog.PositionGrowth

/-!
# Metrics with exemplars

The exemplars of a metric are in a table of their own, `_prom_catalog.exemplar` has a row for
it, and its label keys have positions apart. A new metric starts without any.
-/
namespace Promscale

open Promscale.Lib

/-- A row of `_prom_catalog.exemplar`. -/
structure ExemplarTable where
  id : Nat
  metricName : String
  tableName : String
  deriving DecidableEq, Repr

def ExemplarTable.constraints : Constraints ExemplarTable where
  conflict a b := a.id = b.id || a.metricName = b.metricName
  symm a b := by simp only [eq_comm]
  check _ := true

/-- The catalog with the tables of `incremental/011-tables-exemplar.sql` and what is in the
schema `prom_data_exemplar`. -/
structure Exemplified where
  catalog : Catalog
  exemplar : Table ExemplarTable ExemplarTable.constraints
  exemplarIdSeq : Nat
  /-- `prom_data_exemplar.*`, the rows without label values and value. -/
  dataExemplar : String → Option (List Sample)
  /-- Whether `ei_%s`, which is not quoted, makes an index name of the table's name. -/
  indexable : String → Bool

namespace Exemplified

open Catalog

abbrev Sql (α : Type) := Prog Exemplified Failure α

def init (c : Catalog) (indexable : String → Bool) : Exemplified where
  catalog := c
  exemplar := .empty
  exemplarIdSeq := 0
  dataExemplar _ := none
  indexable := indexable

/-- A function of the catalog. -/
def lift {α : Type} (x : Catalog.Sql α) : Exemplified.Sql α := do
  let s ← get
  match x.run s.catalog with
  | .error e => throw e
  | .ok (a, c) =>
    set { s with catalog := c }
    pure a

def raise {α : Type} (message errcode : String) : Exemplified.Sql α :=
  throw (.raised ⟨message, errcode⟩)

def createExemplarTable (tableNameFetched : String) : Exemplified.Sql Unit := do
  let s ← get
  match s.dataExemplar tableNameFetched with
  | some _ => raise ("relation \"" ++ tableNameFetched ++ "\" already exists") "42P07"
  | none =>
    if s.indexable tableNameFetched then
      set { s with dataExemplar := assign s.dataExemplar tableNameFetched (some []) }
    else raise "syntax error" "42601"

def insertExemplar (metricNameFetched tableNameFetched : String) : Exemplified.Sql Unit := do
  let s ← get
  match s.exemplar.insert ⟨s.exemplarIdSeq + 1, metricNameFetched, tableNameFetched⟩ rfl with
  | none => raise "duplicate key value violates unique constraint" "23505"
  | some exemplar => set { s with exemplar := exemplar, exemplarIdSeq := s.exemplarIdSeq + 1 }

def createExemplarTableIfNotExists (metricName : String) : Exemplified.Sql Bool := do
  let s ← get
  match s.catalog.findMetric metricName with
  | none =>
    raise ("_prom_catalog.metric does not contain the table entry for " ++ metricName ++ " metric")
      "P0001"
  | some m =>
    if s.exemplar.rows.any fun e => e.metricName = metricName then pure false
    else do
      createExemplarTable m.tableName
      insertExemplar m.metricName m.tableName
      pure true

/-- `ON CONFLICT DO NOTHING` over the index on series and time. -/
def insertIfNew (rows : List Sample) (row : Sample) : List Sample :=
  if row ∈ rows then rows else rows ++ [row]

def insertExemplarRow (metricTable : String) (rows : List Sample) : Exemplified.Sql Nat := do
  let s ← get
  match s.dataExemplar metricTable with
  | none => raise ("relation \"prom_data_exemplar." ++ metricTable ++ "\" does not exist") "42P01"
  | some olds =>
    let news := (rows.insertionSort fun a b =>
      a.seriesId < b.seriesId || (a.seriesId = b.seriesId && a.time ≤ b.time)).foldl insertIfNew olds
    set { s with dataExemplar := assign s.dataExemplar metricTable (some news) }
    pure (news.length - olds.length)

inductive Op where
  | catalog (op : Catalog.Op)
  | createExemplarTableIfNotExists (metricName : String)
  | insertExemplarRow (metricTable : String) (rows : List Sample)

def Op.call : Op → Exemplified.Sql Unit
  | catalog op => lift op.call
  | createExemplarTableIfNotExists metricName => do
    let _ ← Exemplified.createExemplarTableIfNotExists metricName
  | insertExemplarRow metricTable rows => do
    let _ ← Exemplified.insertExemplarRow metricTable rows

/-- A call that fails is rolled back. -/
def step (s : Exemplified) (op : Op) : Exemplified :=
  match op.call.run s with
  | .ok (_, s') => s'
  | .error _ => s

/-! ## What holds in every run -/

structure Inv (s : Exemplified) : Prop where
  wellFormed : s.catalog.WellFormed
  exemplarId : ∀ e ∈ s.exemplar.rows, e.id ≤ s.exemplarIdSeq
  exemplarTable : ∀ T, (s.dataExemplar T).isSome = true → ∃ e ∈ s.exemplar.rows, e.tableName = T

theorem lift_runs {α : Type} {x : Catalog.Sql α} {s : Exemplified} {a : α} {c : Catalog}
    (h : x.run s.catalog = .ok (a, c)) : (lift x).run s = .ok (a, { s with catalog := c }) := by
  unfold lift
  rw [StateT.run_bind, StateT.run_get, pure_bind, h]
  rfl

theorem lift_ensures {α : Type} {x : Catalog.Sql α} {s : Exemplified}
    {post : α → Exemplified → Prop}
    (h : Ensures x s.catalog fun a c => post a { s with catalog := c }) :
    Ensures (lift x) s post := by
  unfold lift
  apply Ensures.bind
  apply Ensures.get
  split
  · exact Ensures.throw
  · rename_i a c hrun
    apply Ensures.bind
    apply Ensures.set
    apply Ensures.pure
    exact h a c hrun

theorem init_inv {c : Catalog} (hwf : c.WellFormed) (indexable : String → Bool) :
    Inv (init c indexable) where
  wellFormed := hwf
  exemplarId e he := by cases he
  exemplarTable T h := by cases h

theorem createExemplarTable_creates (s : Exemplified) (T : String) :
    Ensures (createExemplarTable T) s fun _ s' =>
      s' = { s with dataExemplar := assign s.dataExemplar T (some []) } := by
  unfold createExemplarTable
  apply Ensures.bind
  apply Ensures.get
  split
  · exact Ensures.throw
  · split
    · exact Ensures.set rfl
    · exact Ensures.throw

theorem createExemplarTableIfNotExists_inv {s : Exemplified} (hinv : Inv s) (metricName : String) :
    Ensures (createExemplarTableIfNotExists metricName) s fun _ s' => Inv s' := by
  unfold createExemplarTableIfNotExists
  apply Ensures.bind
  apply Ensures.get
  split
  · exact Ensures.throw
  · rename_i m hm
    split
    · exact Ensures.pure hinv
    · apply Ensures.bind
      refine (createExemplarTable_creates s m.tableName).mono ?_
      rintro _ _ rfl
      unfold insertExemplar
      apply Ensures.bind
      apply Ensures.bind
      apply Ensures.get
      split
      · exact Ensures.throw
      · rename_i exemplar hinsert
        apply Ensures.set
        apply Ensures.pure
        have hmem := Table.mem_insert hinsert
        refine ⟨hinv.wellFormed, ?_, ?_⟩
        · intro e he
          rcases (hmem e).mp he with hold | rfl
          · exact Nat.le_succ_of_le (hinv.exemplarId e hold)
          · exact Nat.le_refl _
        · intro T hT
          by_cases hnew : T = m.tableName
          · exact ⟨_, (hmem _).mpr (.inr rfl), hnew.symm⟩
          · have hold : (s.dataExemplar T).isSome = true := by
              simpa [hnew] using hT
            obtain ⟨e, he, htable⟩ := hinv.exemplarTable T hold
            exact ⟨e, (hmem e).mpr (.inl he), htable⟩

theorem insertExemplarRow_inv {s : Exemplified} (hinv : Inv s) (metricTable : String)
    (rows : List Sample) :
    Ensures (insertExemplarRow metricTable rows) s fun _ s' => Inv s' := by
  unfold insertExemplarRow
  apply Ensures.bind
  apply Ensures.get
  split
  · exact Ensures.throw
  · rename_i olds holds
    dsimp only
    apply Ensures.bind
    apply Ensures.set
    apply Ensures.pure
    refine ⟨hinv.wellFormed, hinv.exemplarId, ?_⟩
    intro T hT
    apply hinv.exemplarTable T
    by_cases hsame : T = metricTable
    · rw [hsame, holds]
      rfl
    · simpa [hsame] using hT

theorem step_inv {s : Exemplified} (hinv : Inv s) (op : Op) : Inv (step s op) := by
  have hcall : Ensures op.call s fun _ s' => Inv s' := by
    cases op with
    | catalog op =>
      apply lift_ensures
      intro _ c hrun
      have hstep : Catalog.step s.catalog op = c := by
        unfold Catalog.step
        rw [hrun]
      refine ⟨?_, hinv.exemplarId, hinv.exemplarTable⟩
      rw [← hstep]
      exact step_wellFormed hinv.wellFormed op
    | createExemplarTableIfNotExists metricName =>
      apply Ensures.bind
      refine (createExemplarTableIfNotExists_inv hinv metricName).mono ?_
      intro _ s' hinv'
      exact Ensures.pure hinv'
    | insertExemplarRow metricTable rows =>
      apply Ensures.bind
      refine (insertExemplarRow_inv hinv metricTable rows).mono ?_
      intro _ s' hinv'
      exact Ensures.pure hinv'
  unfold step
  split
  · rename_i s' hrun
    exact hcall _ s' hrun
  · exact hinv

theorem run_inv {s : Exemplified} (hinv : Inv s) (ops : List Op) : Inv (ops.foldl step s) := by
  induction ops generalizing s with
  | nil => exact hinv
  | cons op ops ih => exact ih (step_inv hinv op)

/-! ## What a new metric has -/

theorem getOrCreateLabelId_runs {c : Catalog} (hid : ∀ l ∈ c.label.rows, l.id ≤ c.labelIdSeq)
    (keyName valueName : String) : ∃ id label labelIdSeq,
      (getOrCreateLabelId keyName valueName).run c =
        .ok (id, { c with label := label, labelIdSeq := labelIdSeq }) := by
  unfold getOrCreateLabelId
  rw [StateT.run_bind, StateT.run_get, pure_bind]
  cases hfind : c.findLabel keyName valueName with
  | some l => exact ⟨l.id, c.label, c.labelIdSeq, rfl⟩
  | none =>
    have hfree : ∀ l ∈ c.label.rows, Label.constraints.conflict l
        ⟨c.labelIdSeq + 1, keyName, valueName⟩ = false := by
      intro l hl
      have hother := List.find?_eq_none.mp hfind l hl
      have hle := hid l hl
      have hne : l.id ≠ c.labelIdSeq + 1 := by omega
      simpa [Label.constraints, hne] using hother
    cases hinsert : c.label.insert ⟨c.labelIdSeq + 1, keyName, valueName⟩
        (by simp [Label.constraints]) with
    | none =>
      obtain ⟨l, hl, hconflict⟩ := (Table.insert_eq_none_iff _ _ _).mp hinsert
      rw [hfree l hl] at hconflict
      cases hconflict
    | some label =>
      refine ⟨c.labelIdSeq + 1, label, c.labelIdSeq + 1, ?_⟩
      dsimp only
      unfold getNewLabelId getNewLabelIdLoop insertLabel
      simp only [StateT.run_bind, StateT.run_get, pure_bind, hinsert]
      rfl

theorem makeMetricTable_runs {c : Catalog} {new : Metric}
    (hid : ∀ l ∈ c.label.rows, l.id ≤ c.labelIdSeq) (hraw : new.isView = false)
    (htable : c.relations (new.tableSchema, new.tableName) = none)
    (hseries : c.dataSeries new.tableName = none) : ∃ labelId label labelIdSeq,
      (makeMetricTable new).run c = .ok ((), { c with
        relations := assign c.relations (new.tableSchema, new.tableName) (some [])
        label := label
        labelIdSeq := labelIdSeq
        dataSeries := assign c.dataSeries new.tableName (some ⟨new.id, labelId, .empty⟩) }) := by
  have hfirst : (createTable (new.tableSchema, new.tableName)).run c = .ok ((), { c with
      relations := assign c.relations (new.tableSchema, new.tableName) (some []) }) := by
    unfold createTable
    rw [StateT.run_bind, StateT.run_get, pure_bind, htable]
    rfl
  obtain ⟨labelId, label, labelIdSeq, hlabel⟩ := @getOrCreateLabelId_runs
    { c with relations := assign c.relations (new.tableSchema, new.tableName) (some []) } hid
    nameKey new.metricName
  refine ⟨labelId, label, labelIdSeq, ?_⟩
  unfold makeMetricTable
  rw [if_neg (by simp [hraw]), run_bind_of_ok hfirst, run_bind_of_ok hlabel]
  unfold createSeriesTable
  rw [StateT.run_bind, StateT.run_get, pure_bind]
  dsimp only
  rw [hseries]
  rfl

/-- With room for it a new metric gets empty tables. -/
theorem getOrCreateMetricTableName_makes {c : Catalog} {metricName T : String}
    (hid : ∀ l ∈ c.label.rows, l.id ≤ c.labelIdSeq)
    (hT : T = pgNameUnique metricName (toString (c.metricIdSeq + 1)))
    (hrow : ∀ m ∈ c.metric.rows, Metric.constraints.conflict m
      (newRawMetric (c.metricIdSeq + 1) metricName) = false)
    (htable : c.relations (promData, T) = none) (hseries : c.dataSeries T = none) :
    ∃ c', (getOrCreateMetricTableName metricName).run c = .ok ((c.metricIdSeq + 1, T), c') ∧
      c'.relations (promData, T) = some [] ∧
      (∃ t, c'.dataSeries T = some t ∧ t.series.rows = []) ∧
      c'.findMetric metricName = some (newRawMetric (c.metricIdSeq + 1) metricName) ∧
      c'.labelKeyPosition = c.labelKeyPosition ∧
      c'.exemplarLabelKeyPosition = c.exemplarLabelKeyPosition := by
  subst hT
  have hnone : c.findMetric metricName = none := by
    refine List.find?_eq_none.mpr fun m hm hraw => ?_
    simp only [Bool.and_eq_true, decide_eq_true_eq] at hraw
    have hfree := hrow m hm
    simp [Metric.constraints, newRawMetric, hraw] at hfree
  cases hinsert : c.metric.insert (newRawMetric (c.metricIdSeq + 1) metricName) rfl with
  | none =>
    obtain ⟨m, hm, hconflict⟩ := (Table.insert_eq_none_iff _ _ _).mp hinsert
    rw [hrow m hm] at hconflict
    cases hconflict
  | some metric =>
    obtain ⟨labelId, label, labelIdSeq, hmake⟩ := @makeMetricTable_runs
      { c with metric := metric, metricIdSeq := c.metricIdSeq + 1 }
      (newRawMetric (c.metricIdSeq + 1) metricName) hid rfl htable hseries
    have hmem := (Table.mem_insert hinsert (newRawMetric (c.metricIdSeq + 1) metricName)).mpr
      (.inr rfl)
    have hrun : (getOrCreateMetricTableName metricName).run c =
        ((makeMetricTable (newRawMetric (c.metricIdSeq + 1) metricName)).run
          { c with metric := metric, metricIdSeq := c.metricIdSeq + 1 }).map fun p =>
            ((c.metricIdSeq + 1, pgNameUnique metricName (toString (c.metricIdSeq + 1))), p.2) := by
      unfold getOrCreateMetricTableName
      rw [StateT.run_bind, StateT.run_get, pure_bind, hnone]
      change (createMetricTable metricName).run c = _
      unfold createMetricTable
      rw [StateT.run_bind, StateT.run_get, pure_bind, hinsert]
      dsimp only
      rw [StateT.run_bind, StateT.run_set, pure_bind, run_bind_of_ok hmake, hmake]
      rfl
    rw [hmake] at hrun
    have hfound := @findMetric_of_raw { c with metric := metric, metricIdSeq := c.metricIdSeq + 1 }
      (newRawMetric (c.metricIdSeq + 1) metricName) hmem rfl
    exact ⟨_, hrun, assign_self _ _ _,
      ⟨⟨c.metricIdSeq + 1, labelId, .empty⟩, assign_self _ _ _, rfl⟩, hfound, rfl, rfl⟩

/-- Creates a metric with exemplars. -/
def create (metricName : String) : Exemplified.Sql ((Nat × String) × Bool) := do
  let m ← lift (getOrCreateMetricTableName metricName)
  let created ← createExemplarTableIfNotExists metricName
  pure (m, created)

def newTable (s : Exemplified) (metricName : String) : String :=
  pgNameUnique metricName (toString (s.catalog.metricIdSeq + 1))

/-- The metric is created as in a database that never had it. -/
def CreatesAsNew (s : Exemplified) (metricName : String) : Prop :=
  ∃ s', (create metricName).run s =
      .ok (((s.catalog.metricIdSeq + 1, s.newTable metricName), true), s') ∧
    s'.catalog.relations (promData, s.newTable metricName) = some [] ∧
    (∃ t, s'.catalog.dataSeries (s.newTable metricName) = some t ∧ t.series.rows = []) ∧
    s'.dataExemplar (s.newTable metricName) = some [] ∧
    ∀ isForExemplar key, s'.catalog.position isForExemplar metricName key = none

theorem createExemplarTableIfNotExists_creates {s : Exemplified} (hinv : Inv s) {m : Metric}
    (hm : s.catalog.findMetric m.metricName = some m)
    (hexemplar : ∀ e ∈ s.exemplar.rows, e.metricName ≠ m.metricName ∧ e.tableName ≠ m.tableName)
    (hindex : s.indexable m.tableName = true) : ∃ exemplar,
      (createExemplarTableIfNotExists m.metricName).run s = .ok (true, { s with
        dataExemplar := assign s.dataExemplar m.tableName (some [])
        exemplar := exemplar
        exemplarIdSeq := s.exemplarIdSeq + 1 }) := by
  have hnone : s.dataExemplar m.tableName = none := by
    cases htable : s.dataExemplar m.tableName with
    | none => rfl
    | some rows =>
      obtain ⟨e, he, hname⟩ := hinv.exemplarTable m.tableName (by rw [htable]; rfl)
      exact absurd hname (hexemplar e he).2
  have hno : (s.exemplar.rows.any fun e => e.metricName = m.metricName) = false := by
    simpa using fun e he => (hexemplar e he).1
  cases hinsert : s.exemplar.insert ⟨s.exemplarIdSeq + 1, m.metricName, m.tableName⟩ rfl with
  | none =>
    obtain ⟨e, he, hconflict⟩ := (Table.insert_eq_none_iff _ _ _).mp hinsert
    have hle := hinv.exemplarId e he
    have hne : e.id ≠ s.exemplarIdSeq + 1 := by omega
    simp [ExemplarTable.constraints, hne, (hexemplar e he).1] at hconflict
  | some exemplar =>
    refine ⟨exemplar, ?_⟩
    have htable : (createExemplarTable m.tableName).run s = .ok ((), { s with
        dataExemplar := assign s.dataExemplar m.tableName (some []) }) := by
      unfold createExemplarTable
      rw [StateT.run_bind, StateT.run_get, pure_bind, hnone]
      dsimp only
      rw [if_pos hindex]
      rfl
    have hrow : (insertExemplar m.metricName m.tableName).run { s with
        dataExemplar := assign s.dataExemplar m.tableName (some []) } = .ok ((), { s with
          dataExemplar := assign s.dataExemplar m.tableName (some [])
          exemplar := exemplar
          exemplarIdSeq := s.exemplarIdSeq + 1 }) := by
      unfold insertExemplar
      rw [StateT.run_bind, StateT.run_get, pure_bind]
      dsimp only
      rw [hinsert]
      rfl
    unfold createExemplarTableIfNotExists
    rw [StateT.run_bind, StateT.run_get, pure_bind, hm]
    dsimp only
    rw [if_neg (by rw [hno]; simp), run_bind_of_ok htable, run_bind_of_ok hrow]
    rfl

theorem createsAsNew {s : Exemplified} (hinv : Inv s) {metricName : String}
    (hrow : ∀ m ∈ s.catalog.metric.rows, Metric.constraints.conflict m
      (newRawMetric (s.catalog.metricIdSeq + 1) metricName) = false)
    (htable : s.catalog.relations (promData, s.newTable metricName) = none)
    (hseries : s.catalog.dataSeries (s.newTable metricName) = none)
    (hexemplar : ∀ e ∈ s.exemplar.rows,
      e.metricName ≠ metricName ∧ e.tableName ≠ s.newTable metricName)
    (hindex : s.indexable (s.newTable metricName) = true)
    (hposition : ∀ isForExemplar key, s.catalog.position isForExemplar metricName key = none) :
    CreatesAsNew s metricName := by
  obtain ⟨c, hrun, hsamples, ⟨t, ht, hrows⟩, hfound, hlabel, hexemplarLabel⟩ :=
    getOrCreateMetricTableName_makes hinv.wellFormed.labelId rfl hrow htable hseries
  have hgrows := getOrCreateMetricTableName_grows s.catalog metricName _ _ hrun
  have hinv' : Inv { s with catalog := c } := ⟨hgrows.wellFormed hinv.wellFormed, hinv.exemplarId,
    hinv.exemplarTable⟩
  obtain ⟨exemplar, hcreate⟩ := @createExemplarTableIfNotExists_creates { s with catalog := c } hinv'
    (newRawMetric (s.catalog.metricIdSeq + 1) metricName) hfound hexemplar hindex
  have hcreate : (createExemplarTableIfNotExists metricName).run { s with catalog := c } = _ := hcreate
  have hall : (create metricName).run s =
      ((createExemplarTableIfNotExists metricName).run { s with catalog := c }).map fun p =>
        (((s.catalog.metricIdSeq + 1, s.newTable metricName), p.1), p.2) := by
    unfold create
    rw [StateT.run_bind, lift_runs hrun]
    change StateT.run (createExemplarTableIfNotExists metricName >>= fun created => pure _) _ = _
    rw [StateT.run_bind, hcreate]
    rfl
  rw [hcreate] at hall
  refine ⟨_, hall, hsamples, ⟨t, ht, hrows⟩, assign_self _ _ _, ?_⟩
  intro isForExemplar key
  have hsame := hposition isForExemplar key
  unfold position at hsame ⊢
  dsimp only
  rw [hlabel, hexemplarLabel]
  exact hsame

end Exemplified

end Promscale
