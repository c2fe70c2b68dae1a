import Mathlib.Data.List.Nodup
import Promscale.Catalog.MetricViews
import Promscale.Catalog.PositionRuns

/-!
# Columns of registered views

A view is registered when three of its columns pass one filter: the columns `time` and
`series_id` with their types, and every column with double precision. Three of the last kind
pass for a view that has none of the others, which retention cannot read then.
-/
namespace Promscale.Catalog

open Promscale.Lib

abbrev Column := String × String

def timeColumn : Column := ("time", "timestamp with time zone")

def seriesIdColumn : Column := ("series_id", "bigint")

def isDouble (column : Column) : Bool := column.2 = "double precision"

/-- What the error of the check says a view must contain. -/
def HasMetricColumns (columns : List Column) : Prop :=
  timeColumn ∈ columns ∧ seriesIdColumn ∈ columns ∧ ∃ column ∈ columns, isDouble column = true

instance (columns : List Column) : Decidable (HasMetricColumns columns) :=
  inferInstanceAs (Decidable (_ ∧ _))

/-- `get_confirmed_unused_series` reads these columns of each relation on a series table. -/
def ReadableByRetention (columns : List Column) : Prop :=
  "series_id" ∈ columns.map (·.1) ∧ "time" ∈ columns.map (·.1)

def missingColumns : Failure :=
  .raised ⟨"view must contain time (data type: timestamp with time zone), series_id (data " ++
    "type: bigint), and at least one column with double precision data type", "P0001"⟩

/-- Each column passes the filter for one reason. -/
theorem metricColumns_length (columns : List Column) :
    (columns.filter isMetricColumn).length =
      columns.count timeColumn + columns.count seriesIdColumn + columns.countP isDouble := by
  induction columns with
  | nil => rfl
  | cons column columns ih =>
    obtain ⟨name, type⟩ := column
    rw [List.filter_cons, List.count_cons, List.count_cons, List.countP_cons]
    by_cases htime : (name, type) = timeColumn
    · cases htime
      simp [isMetricColumn, timeColumn, seriesIdColumn, isDouble] at ih ⊢
      omega
    · by_cases hid : (name, type) = seriesIdColumn
      · cases hid
        simp [isMetricColumn, timeColumn, seriesIdColumn, isDouble] at ih ⊢
        omega
      · have hfilter : isMetricColumn (name, type) = isDouble (name, type) := by
          simp only [timeColumn, seriesIdColumn, Prod.mk.injEq] at htime hid
          simp [isMetricColumn, isDouble, htime, hid]
        rw [hfilter]
        cases isDouble (name, type)
        · simp [htime, hid, ih]
        · simp [htime, hid, ih]
          omega

/-- With unique names, the filter counts `time` and `series_id` once at most. -/
theorem three_le_metricColumns_iff {columns : List Column} (hunique : (columns.map (·.1)).Nodup) :
    3 ≤ (columns.filter isMetricColumn).length ↔
      3 ≤ (if timeColumn ∈ columns then 1 else 0) + (if seriesIdColumn ∈ columns then 1 else 0) +
        columns.countP isDouble := by
  have hnodup : columns.Nodup := hunique.of_map _
  rw [metricColumns_length, hnodup.count, hnodup.count]

/-- The check means what it says exactly for the views with both columns and for those of
which too few columns pass the filter. -/
theorem three_le_iff_hasMetricColumns {columns : List Column}
    (hunique : (columns.map (·.1)).Nodup) :
    (3 ≤ (columns.filter isMetricColumn).length ↔ HasMetricColumns columns) ↔
      (timeColumn ∈ columns ∧ seriesIdColumn ∈ columns) ∨
        (if timeColumn ∈ columns then 1 else 0) + (if seriesIdColumn ∈ columns then 1 else 0) +
          columns.countP isDouble ≤ 2 := by
  have hdouble : (∃ column ∈ columns, isDouble column = true) ↔ 0 < columns.countP isDouble := by
    rw [List.countP_pos_iff]
  rw [three_le_metricColumns_iff hunique, HasMetricColumns, hdouble]
  by_cases hboth : timeColumn ∈ columns ∧ seriesIdColumn ∈ columns
  · rw [if_pos hboth.1, if_pos hboth.2]
    refine iff_of_true ⟨fun h => ⟨hboth.1, hboth.2, ?_⟩, fun h => ?_⟩ (.inl hboth)
    · omega
    · have := h.2.2
      omega
  · have hmissing : ¬ (timeColumn ∈ columns ∧ seriesIdColumn ∈ columns ∧
        0 < columns.countP isDouble) := fun h => hboth ⟨h.1, h.2.1⟩
    rw [or_iff_right hboth, iff_false_intro hmissing, iff_false]
    omega

theorem HasMetricColumns.readable {columns : List Column} (h : HasMetricColumns columns) :
    ReadableByRetention columns :=
  ⟨List.mem_map_of_mem h.2.1, List.mem_map_of_mem h.1⟩

section Register
variable {c : Catalog} {schemaName viewName : String} {ifNotExists : Bool}

/-- A call that comes to the check fails there when fewer than three columns pass. -/
theorem registerMetricView_missingColumns (hexists : c.relationExists (schemaName, viewName) = true)
    (hschema : schemaName ≠ promData)
    (hmetric : (c.getFirstLevelViewOnMetric (schemaName, viewName)).isSome = true) :
    (registerMetricView schemaName viewName ifNotExists).run c = .error missingColumns ↔
      ((c.viewColumns (schemaName, viewName)).filter isMetricColumn).length < 3 := by
  obtain ⟨metric, hmetric⟩ := Option.isSome_iff_exists.mp hmetric
  unfold registerMetricView
  rw [StateT.run_bind, StateT.run_get, pure_bind, hexists, hmetric]
  simp only [Bool.not_true, Bool.false_eq_true, if_false, if_neg hschema]
  split
  · rename_i hfew
    exact iff_of_true rfl hfew
  · rename_i hfew
    refine iff_of_false ?_ hfew
    split
    · intro h
      cases h
    · split
      · intro h
        cases h
      · intro h
        injection h with h
        injection h with h
        injection h with hmessage
        exact absurd hmessage (by decide)

/-- Registration checks for the columns it asks for, and lets only readable views pass, exactly
when the view has both `time` and `series_id` or too few columns with double precision to pass
for them. -/
theorem registerMetricView_columns_iff
    (hexists : c.relationExists (schemaName, viewName) = true) (hschema : schemaName ≠ promData)
    (hmetric : (c.getFirstLevelViewOnMetric (schemaName, viewName)).isSome = true)
    (hunique : ((c.viewColumns (schemaName, viewName)).map (·.1)).Nodup) :
    (((registerMetricView schemaName viewName ifNotExists).run c ≠ .error missingColumns ↔
        HasMetricColumns (c.viewColumns (schemaName, viewName))) ∧
      ∀ c', (registerMetricView schemaName viewName ifNotExists).run c = .ok (true, c') →
        ReadableByRetention (c.viewColumns (schemaName, viewName))) ↔
    (timeColumn ∈ c.viewColumns (schemaName, viewName) ∧
        seriesIdColumn ∈ c.viewColumns (schemaName, viewName)) ∨
      (if timeColumn ∈ c.viewColumns (schemaName, viewName) then 1 else 0) +
        (if seriesIdColumn ∈ c.viewColumns (schemaName, viewName) then 1 else 0) +
        (c.viewColumns (schemaName, viewName)).countP isDouble ≤ 2 := by
  rw [← three_le_iff_hasMetricColumns hunique, ne_eq,
    registerMetricView_missingColumns hexists hschema hmetric, Nat.not_lt]
  refine and_iff_left_of_imp ?_
  intro hmeans c' hcall
  refine (hmeans.mp ?_).readable
  by_contra hfew
  have herror : (registerMetricView schemaName viewName ifNotExists).run c = .error missingColumns :=
    (registerMetricView_missingColumns hexists hschema hmetric).mpr (Nat.lt_of_not_le hfew)
  rw [hcall] at herror
  cases herror

end Register

/-- The metric `cpu` with a view `agg.cpu` that has the columns. -/
def withView (columns : List Column) : Catalog :=
  { cpuMetric with
    userViews := [⟨"agg", "cpu", [(promData, "cpu")], columns, false⟩]
    relations := assign cpuMetric.relations ("agg", "cpu") (some []) }

theorem registerMetricView_columns_full :
    (registerMetricView "agg" "cpu" false).run
        (withView [timeColumn, seriesIdColumn, ("value", "double precision")]) ≠
      .error missingColumns ∧
    HasMetricColumns [timeColumn, seriesIdColumn, ("value", "double precision")] := by
  have h := (@registerMetricView_columns_iff
    (withView [timeColumn, seriesIdColumn, ("value", "double precision")]) "agg" "cpu" false
    rfl (by decide) rfl (by decide)).mpr (.inl (by decide))
  exact ⟨h.1.mpr (by decide), by decide⟩

/-- Three columns with double precision pass, and retention then asks for a column that is
not there. -/
theorem registerMetricView_threeDoubles : ∃ columns : List Column, (columns.map (·.1)).Nodup ∧
    (∃ c', (registerMetricView "agg" "cpu" false).run (withView columns) = .ok (true, c')) ∧
    ¬ HasMetricColumns ((withView columns).viewColumns ("agg", "cpu")) ∧
    "series_id" ∉ ((withView columns).viewColumns ("agg", "cpu")).map (·.1) :=
  ⟨[("low", "double precision"), ("high", "double precision"), ("mean", "double precision")],
    by decide, ⟨_, rfl⟩, by decide, by decide⟩

end Promscale.Catalog
