import Promscale.Lib.Related
import Promscale.Catalog.Metrics

/-!
# Positions of label keys

Each metric gives its label keys positions in the label arrays of its series. A new
position changes the views of the metric, which have a column for each key.
-/
namespace Promscale.Catalog

open Promscale.Lib

/-! ## Views of a metric -/

def reservedColumns : List String := ["time", "value", "series_id", "labels", "series"]

def getLabelKeyColumnNameForView (labelKey : String) (id : Bool) : Sql String := do
  let lk ← getOrCreateLabelKey
    (if labelKey ∈ reservedColumns then "label_" ++ labelKey else labelKey)
  pure (if id then lk.idColumnName else lk.valueColumnName)

/-- The first column that is there twice, `seen` being those before it. -/
def duplicateColumn (seen : List String) : List String → Option String
  | [] => none
  | column :: rest =>
    if column ∈ seen then some column else duplicateColumn (seen ++ [column]) rest

/-- A view may be replaced by one that starts with the same columns. -/
def renamedColumn : List String → List String → Option String
  | old :: olds, new :: news =>
    if old = new then renamedColumn olds news
    else some ("cannot change name of view column \"" ++ old ++ "\" to \"" ++ new ++ "\"")
  | _ :: _, [] => some "cannot drop columns from view"
  | [], _ => none

def ViewColumn.fixed (name : String) : ViewColumn := ⟨name, none⟩

def createOrReplaceView (view : String × String) (columns : List ViewColumn) : Sql Unit := do
  let c ← get
  if 1664 < columns.length then raise "target lists can have at most 1664 entries" "54001"
  else if 1600 < columns.length then raise "tables can have at most 1600 columns" "54011"
  else
    match c.views view with
    | none =>
      match duplicateColumn [] (columns.map (·.name)) with
      | some column => raise ("column \"" ++ column ++ "\" specified more than once") "42701"
      | none => set { c with targetList := assign c.targetList view (some columns) }
    | some olds =>
      match renamedColumn olds (columns.map (·.name)) with
      | some message => raise message "42P16"
      | none =>
        match duplicateColumn olds ((columns.map (·.name)).drop olds.length) with
        | some column =>
          raise ("column \"" ++ column ++ "\" of relation \"" ++ view.2 ++ "\" already exists") "42701"
        | none => set { c with targetList := assign c.targetList view (some columns) }

/-- The columns of the label keys, each over its position, in the order of the positions. -/
def positionedColumns (metricName : String) (id : Bool) : Sql (List ViewColumn) := do
  let c ← get
  let columns ← (c.labelKeyPosition.rows.filter fun p =>
      p.metricName = metricName && p.key ≠ nameKey).mapM fun p => do
    let column ← getLabelKeyColumnNameForView p.key id
    pure (p.pos, column)
  pure ((columns.insertionSort fun a b => a.1 ≤ b.1).map fun column => ⟨column.2, some column.1⟩)

/-- Their names. -/
def labelColumns (metricName : String) (id : Bool) : Sql (List String) := do
  let columns ← positionedColumns metricName id
  pure (columns.map (·.name))

def findMetricStrict (metricName : String) : Sql Metric := do
  match (← get).findMetric metricName with
  | some m => pure m
  | none => raise "query returned no rows" "P0002"

def requireDataSeries (tableName : String) : Sql Unit := do
  match (← get).dataSeries tableName with
  | some _ => pure ()
  | none => undefinedTable tableName

def requireRelation (relation : String × String) : Sql Unit := do
  match (← get).relations relation with
  | some _ => pure ()
  | none => undefinedTable relation.2

def createSeriesView (metricName : String) : Sql Unit := do
  let labelValueCols ← positionedColumns metricName false
  let m ← findMetricStrict metricName
  requireDataSeries m.tableName
  createOrReplaceView ("prom_series", m.tableName)
    (["series_id", "labels"].map ViewColumn.fixed ++ labelValueCols)

def createMetricView (metricName : String) : Sql Unit := do
  let labelValueCols ← positionedColumns metricName true
  let m ← findMetricStrict metricName
  requireRelation (promData, m.tableName)
  requireDataSeries m.tableName
  createOrReplaceView ("prom_metric", m.tableName)
    (["time", "value", "series_id", "labels"].map ViewColumn.fixed ++ labelValueCols)

theorem getLabelKeyColumnNameForView_grows (c : Catalog) (labelKey : String) (id : Bool) :
    Ensures (getLabelKeyColumnNameForView labelKey id) c fun _ c' => Grows c c' := by
  unfold getLabelKeyColumnNameForView
  apply Ensures.bind
  refine (getOrCreateLabelKey_grows c _).mono ?_
  rintro lk c' ⟨hgrows, -⟩
  exact Ensures.pure hgrows

theorem views_assign (c : Catalog) (view : String × String) (columns : Option (List ViewColumn)) :
    { c with targetList := assign c.targetList view columns }.views =
      assign c.views view (columns.map fun columns => columns.map (·.name)) := by
  funext other
  by_cases hother : other = view
  · simp [views, hother]
  · simp [views, hother]

theorem createOrReplaceView_grows (c : Catalog) (view : String × String)
    (columns : List ViewColumn) :
    Ensures (createOrReplaceView view columns) c fun _ c' => Grows c c' := by
  have hset : Grows c { c with targetList := assign c.targetList view (some columns) } :=
    .of_eq rfl rfl rfl rfl rfl rfl rfl rfl (by
      intro other hsome
      rw [views_assign]
      by_cases hother : other = view
      · simp [hother]
      · simpa [hother] using hsome) ⟨rfl, rfl, rfl⟩
  unfold createOrReplaceView
  apply Ensures.bind
  apply Ensures.get
  split
  · exact Ensures.throw
  · split
    · exact Ensures.throw
    · split
      · split
        · exact Ensures.throw
        · exact Ensures.set hset
      · split
        · exact Ensures.throw
        · split
          · exact Ensures.throw
          · exact Ensures.set hset

theorem positionedColumns_grows (c : Catalog) (metricName : String) (id : Bool) :
    Ensures (positionedColumns metricName id) c fun _ c' => Grows c c' := by
  unfold positionedColumns
  apply Ensures.bind
  apply Ensures.get
  apply Ensures.bind
  refine (Ensures.mapM (fun _ _ c' => Grows c c') ?_ (.refl c)).mono ?_
  · intro _ p _ _ c' _ hgrows
    apply Ensures.bind
    refine (getLabelKeyColumnNameForView_grows c' p.key id).mono ?_
    intro column c'' hgrows'
    exact Ensures.pure (hgrows.trans hgrows')
  · intro columns c' hgrows
    exact Ensures.pure hgrows

theorem findMetricStrict_same (c : Catalog) (metricName : String) :
    Ensures (findMetricStrict metricName) c fun _ c' => c' = c := by
  unfold findMetricStrict
  apply Ensures.bind
  apply Ensures.get
  split
  · exact Ensures.pure rfl
  · exact Ensures.throw

theorem requireDataSeries_same (c : Catalog) (tableName : String) :
    Ensures (requireDataSeries tableName) c fun _ c' => c' = c := by
  unfold requireDataSeries
  apply Ensures.bind
  apply Ensures.get
  split
  · exact Ensures.pure rfl
  · exact Ensures.throw

theorem requireRelation_same (c : Catalog) (relation : String × String) :
    Ensures (requireRelation relation) c fun _ c' => c' = c := by
  unfold requireRelation
  apply Ensures.bind
  apply Ensures.get
  split
  · exact Ensures.pure rfl
  · exact Ensures.throw

theorem createSeriesView_grows (c : Catalog) (metricName : String) :
    Ensures (createSeriesView metricName) c fun _ c' => Grows c c' := by
  unfold createSeriesView
  apply Ensures.bind
  refine (positionedColumns_grows c metricName false).mono ?_
  intro labelValueCols c₁ hgrows
  apply Ensures.bind
  refine (findMetricStrict_same c₁ metricName).mono ?_
  rintro m _ rfl
  apply Ensures.bind
  refine (requireDataSeries_same _ m.tableName).mono ?_
  rintro _ _ rfl
  refine (createOrReplaceView_grows _ _ _).mono ?_
  intro _ c₂ hgrows'
  exact hgrows.trans hgrows'

theorem createMetricView_grows (c : Catalog) (metricName : String) :
    Ensures (createMetricView metricName) c fun _ c' => Grows c c' := by
  unfold createMetricView
  apply Ensures.bind
  refine (positionedColumns_grows c metricName true).mono ?_
  intro labelValueCols c₁ hgrows
  apply Ensures.bind
  refine (findMetricStrict_same c₁ metricName).mono ?_
  rintro m _ rfl
  apply Ensures.bind
  refine (requireRelation_same _ _).mono ?_
  rintro _ _ rfl
  apply Ensures.bind
  refine (requireDataSeries_same _ m.tableName).mono ?_
  rintro _ _ rfl
  refine (createOrReplaceView_grows _ _ _).mono ?_
  intro _ c₂ hgrows'
  exact hgrows.trans hgrows'

/-! ## New positions -/

/-- The position a first new key gets; element 1 of a series' array is for `__name__`. -/
def maxPosition (c : Catalog) (isForExemplar : Bool) (metricName : String) : Nat :=
  let rows := if isForExemplar then c.exemplarLabelKeyPosition.rows else c.labelKeyPosition.rows
  match ((rows.filter fun p => p.metricName = metricName).map (·.pos)).max? with
  | some pos => pos + 1
  | none => if isForExemplar then 1 else 2

def noNewPosition (isForExemplar : Bool) : Sql Nat :=
  raise ("Could not find a new position. (is_for_exemplar=" ++ (if isForExemplar then "t" else "f") ++
    ")") "P0001"

def insertPosition (isForExemplar : Bool) (row : LabelKeyPosition) : Sql Nat := do
  let c ← get
  if isForExemplar then
    match c.exemplarLabelKeyPosition.insert row rfl with
    | some exemplar =>
      set { c with exemplarLabelKeyPosition := exemplar }
      pure row.pos
    | none => noNewPosition isForExemplar
  else
    match c.labelKeyPosition.insert row rfl with
    | some positions =>
      set { c with labelKeyPosition := positions }
      pure row.pos
    | none => noNewPosition isForExemplar

/-- What the loop does for a key without a position, from `maxPosition` on. -/
def newPosition (metricName keyName : String) (isForExemplar : Bool) (maxPosition : Nat) :
    Sql Nat :=
  if isForExemplar then insertPosition isForExemplar ⟨metricName, keyName, maxPosition⟩
  else do
    let _ ← getOrCreateLabelKey keyName
    insertPosition isForExemplar
      ⟨metricName, keyName, if keyName = nameKey then 1 else maxPosition⟩

/-- The loop over the keys: the positions, and how many of them are new. -/
def positionLoop (metricName : String) (isForExemplar : Bool) :
    List String → Nat → Sql (List Nat × Nat)
  | [], _ => pure ([], 0)
  | keyName :: rest, maxPosition => do
    match (← get).position isForExemplar metricName keyName with
    | some pos => do
      let found ← positionLoop metricName isForExemplar rest maxPosition
      pure (pos :: found.1, found.2)
    | none => do
      let pos ← newPosition metricName keyName isForExemplar maxPosition
      let found ← positionLoop metricName isForExemplar rest
        (if !isForExemplar && keyName = nameKey then maxPosition else maxPosition + 1)
      pure (pos :: found.1, found.2 + 1)

def lockForPositions (metricTable : String) (isForExemplar : Bool) : Sql Unit :=
  if isForExemplar then pure () else requireDataSeries metricTable

def createViewsFor (metricName : String) (isForExemplar : Bool) (countNew : Nat) : Sql Unit :=
  if !isForExemplar && 0 < countNew then do
    createSeriesView metricName
    createMetricView metricName
  else pure ()

def getNewPosForKey (metricName metricTable : String) (keyNameArray : List String)
    (isForExemplar : Bool) : Sql (List Nat) := do
  let c ← get
  let positionArray := keyNameArray.filterMap (c.position isForExemplar metricName)
  if keyNameArray ≠ [] ∧ keyNameArray.length = positionArray.length then pure positionArray
  else do
    lockForPositions metricTable isForExemplar
    let found ← positionLoop metricName isForExemplar keyNameArray
      (c.maxPosition isForExemplar metricName)
    createViewsFor metricName isForExemplar found.2
    pure found.1

/-- `NULL` when the new position is missing from the array, which it never is. -/
def getOrCreateLabelKeyPos (metricName key : String) : Sql (Option Nat) := do
  match (← get).position false metricName key with
  | some pos => pure (some pos)
  | none => do
    let m ← getOrCreateMetricTableName metricName
    let positions ← getNewPosForKey metricName m.2 [key] false
    pure positions.head?

/-- All positions of the metric are below `top`, which is no position of `__name__`. -/
def PositionsBelow (c : Catalog) (metricName : String) (top : Nat) : Prop :=
  2 ≤ top ∧ ∀ p ∈ c.labelKeyPosition.rows, p.metricName = metricName → p.pos < top

theorem maxPosition_above {c : Catalog} (hwf : c.WellFormed) (metricName : String) :
    c.PositionsBelow metricName (c.maxPosition false metricName) := by
  unfold maxPosition PositionsBelow
  simp only [Bool.false_eq_true, if_false]
  split
  · rename_i pos hmax
    rw [List.max?_eq_some_iff] at hmax
    obtain ⟨hmem, hle⟩ := hmax
    obtain ⟨q, hq, rfl⟩ := List.mem_map.mp hmem
    have hpos := (hwf.posOne q (List.mem_filter.mp hq).1).1
    refine ⟨by omega, fun p hp hname => ?_⟩
    have := hle p.pos (List.mem_map_of_mem (List.mem_filter.mpr ⟨hp, by simpa using hname⟩))
    omega
  · rename_i hnone
    rw [List.max?_eq_none_iff, List.map_eq_nil_iff, List.filter_eq_nil_iff] at hnone
    refine ⟨Nat.le_refl 2, fun p hp hname => ?_⟩
    exact absurd hname (by simpa using hnone p hp)

/-- A key without a position gets one that no other key of the metric has. -/
theorem insertedPosition_wellFormed {c : Catalog} {metricName keyName : String} {top : Nat}
    {positions : Table LabelKeyPosition LabelKeyPosition.constraints} {hcheck}
    (hwf : c.WellFormed) (hbelow : c.PositionsBelow metricName top)
    (hfree : c.position false metricName keyName = none)
    (h : c.labelKeyPosition.insert
      ⟨metricName, keyName, if keyName = nameKey then 1 else top⟩ hcheck = some positions) :
    WellFormed { c with labelKeyPosition := positions } := by
  obtain ⟨htop, hbelow⟩ := hbelow
  have hnone : ∀ p ∈ c.labelKeyPosition.rows, p.metricName = metricName → p.key ≠ keyName := by
    rintro p hp rfl rfl
    have := (position_eq_some_iff c p.metricName p.key p.pos).mpr hp
    rw [hfree] at this
    cases this
  have hdistinct : ∀ p ∈ c.labelKeyPosition.rows, p.metricName = metricName →
      p.pos ≠ if keyName = nameKey then 1 else top := by
    intro p hp hname
    split
    · rename_i hkey
      intro hpos
      exact hnone p hp hname (((hwf.posOne p hp).2.mp hpos).trans hkey.symm)
    · exact Nat.ne_of_lt (hbelow p hp hname)
  exact {
    hwf with
    posOne := fun p hp => by
      rcases (Table.mem_insert h p).mp hp with hold | rfl
      · exact hwf.posOne p hold
      · dsimp only
        split
        · rename_i hkey
          exact ⟨Nat.le_refl 1, fun _ => hkey, fun _ => rfl⟩
        · rename_i hkey
          exact ⟨by omega, fun htop' => by omega, fun hkey' => absurd hkey' hkey⟩
    posKey := fun p hp q hq hname hpos => by
      rcases (Table.mem_insert h p).mp hp with hp | rfl
      · rcases (Table.mem_insert h q).mp hq with hq | rfl
        · exact hwf.posKey p hp q hq hname hpos
        · exact absurd hpos (hdistinct p hp hname)
      · rcases (Table.mem_insert h q).mp hq with hq | rfl
        · exact absurd hpos.symm (hdistinct q hq hname.symm)
        · rfl }

def HasPosition (c : Catalog) (metricName key : String) (pos : Nat) : Prop :=
  (⟨metricName, key, pos⟩ : LabelKeyPosition) ∈ c.labelKeyPosition.rows

theorem insertPosition_exemplar_grows (c : Catalog) (row : LabelKeyPosition) :
    Ensures (insertPosition true row) c fun _ c' => Grows c c' := by
  unfold insertPosition
  apply Ensures.bind
  apply Ensures.get
  rw [if_pos rfl]
  split
  · apply Ensures.bind
    apply Ensures.set
    apply Ensures.pure
    exact .of_eq rfl rfl rfl rfl rfl rfl rfl rfl (fun _ h => h) ⟨rfl, rfl, rfl⟩
  · exact Ensures.throw

/-- The positions below `top` are those of a loop that has come from `start` to `c`. -/
theorem newPosition_grows {start c : Catalog} {metricName keyName : String} {top : Nat}
    (hstart : Grows start c) (hbelow : start.WellFormed → c.PositionsBelow metricName top)
    (hfree : c.position false metricName keyName = none) :
    Ensures (newPosition metricName keyName false top) c fun pos c' =>
      Grows start c' ∧ Extends c c' ∧ c'.HasPosition metricName keyName pos ∧
        (start.WellFormed →
          c'.PositionsBelow metricName (if keyName = nameKey then top else top + 1)) := by
  unfold newPosition
  simp only [Bool.false_eq_true, if_false]
  apply Ensures.bind
  refine (getOrCreateLabelKey_grows c keyName).mono ?_
  rintro lk c₁ ⟨hgrows₁, hpositions⟩
  have hfree₁ : c₁.position false metricName keyName = none := by
    unfold position at hfree ⊢
    rwa [hpositions]
  have hbelow₁ : start.WellFormed → c₁.PositionsBelow metricName top := by
    unfold PositionsBelow
    rwa [hpositions]
  unfold insertPosition
  apply Ensures.bind
  apply Ensures.get
  simp only [Bool.false_eq_true, if_false]
  split
  · rename_i positions hinsert
    apply Ensures.bind
    apply Ensures.set
    apply Ensures.pure
    have hextends : Extends c₁ { c₁ with labelKeyPosition := positions } := {
      Extends.refl c₁ with
      position := fun p hp => (Table.mem_insert hinsert p).mpr (.inl hp)
      epoch := ⟨rfl, rfl, rfl⟩ }
    have hgrows₂ := hstart.trans hgrows₁
    refine ⟨⟨hgrows₂.extends_.trans hextends, fun hwf => ?_⟩, hgrows₁.extends_.trans hextends,
      (Table.mem_insert hinsert _).mpr (.inr rfl), fun hwf => ?_⟩
    · exact insertedPosition_wellFormed (hgrows₂.wellFormed hwf) (hbelow₁ hwf) hfree₁ hinsert
    · obtain ⟨htop, hbelow⟩ := hbelow₁ hwf
      refine ⟨by split <;> omega, fun p hp hname => ?_⟩
      rcases (Table.mem_insert hinsert p).mp hp with hold | rfl
      · have := hbelow p hold hname
        split <;> omega
      · dsimp only
        split <;> omega
  · exact Ensures.throw

/-- The loop has come from `start` to `c`. -/
theorem positionLoop_grows {metricName : String} (keys : List String) {start c : Catalog}
    {top : Nat} (hstart : Grows start c)
    (hbelow : start.WellFormed → c.PositionsBelow metricName top) :
    Ensures (positionLoop metricName false keys top) c fun found c' =>
      Grows start c' ∧ Extends c c' ∧ List.Forall₂ (c'.HasPosition metricName) keys found.1 := by
  induction keys generalizing c top with
  | nil => exact Ensures.pure ⟨hstart, .refl c, .nil⟩
  | cons keyName rest ih =>
    unfold positionLoop
    apply Ensures.bind
    apply Ensures.get
    split
    · rename_i pos hpos
      apply Ensures.bind
      refine (ih hstart hbelow).mono ?_
      rintro found c' ⟨hgrows, hextends, hfound⟩
      apply Ensures.pure
      refine ⟨hgrows, hextends, .cons ?_ hfound⟩
      exact hextends.position _ ((position_eq_some_iff c metricName keyName pos).mp hpos)
    · rename_i hfree
      apply Ensures.bind
      refine (newPosition_grows hstart hbelow hfree).mono ?_
      rintro pos c₁ ⟨hgrows₁, hextends₁, hpos, hbelow₁⟩
      apply Ensures.bind
      refine (ih hgrows₁ ?_).mono ?_
      · simpa using hbelow₁
      · rintro found c₂ ⟨hgrows₂, hextends₂, hfound⟩
        apply Ensures.pure
        exact ⟨hgrows₂, hextends₁.trans hextends₂, .cons (hextends₂.position _ hpos) hfound⟩

theorem positionLoop_exemplar_grows {metricName : String} (keys : List String) (c : Catalog)
    (top : Nat) : Ensures (positionLoop metricName true keys top) c fun _ c' => Grows c c' := by
  induction keys generalizing c top with
  | nil => exact Ensures.pure (.refl c)
  | cons keyName rest ih =>
    unfold positionLoop
    apply Ensures.bind
    apply Ensures.get
    split
    · apply Ensures.bind
      refine (ih c top).mono ?_
      intro found c' hgrows
      exact Ensures.pure hgrows
    · apply Ensures.bind
      unfold newPosition
      rw [if_pos rfl]
      refine (insertPosition_exemplar_grows c _).mono ?_
      intro pos c₁ hgrows₁
      apply Ensures.bind
      refine (ih c₁ _).mono ?_
      intro found c₂ hgrows₂
      exact Ensures.pure (hgrows₁.trans hgrows₂)

theorem lockForPositions_same (c : Catalog) (metricTable : String) (isForExemplar : Bool) :
    Ensures (lockForPositions metricTable isForExemplar) c fun _ c' => c' = c := by
  unfold lockForPositions
  split
  · exact Ensures.pure rfl
  · exact requireDataSeries_same c metricTable

theorem createViewsFor_grows (c : Catalog) (metricName : String) (isForExemplar : Bool)
    (countNew : Nat) :
    Ensures (createViewsFor metricName isForExemplar countNew) c fun _ c' => Grows c c' := by
  unfold createViewsFor
  split
  · apply Ensures.bind
    refine (createSeriesView_grows c metricName).mono ?_
    intro _ c₁ hgrows₁
    refine (createMetricView_grows c₁ metricName).mono ?_
    intro _ c₂ hgrows₂
    exact hgrows₁.trans hgrows₂
  · exact Ensures.pure (.refl c)

theorem getNewPosForKey_grows (c : Catalog) (metricName metricTable : String)
    (keyNameArray : List String) :
    Ensures (getNewPosForKey metricName metricTable keyNameArray false) c fun positions c' =>
      Grows c c' ∧ List.Forall₂ (c'.HasPosition metricName) keyNameArray positions := by
  unfold getNewPosForKey
  apply Ensures.bind
  apply Ensures.get
  dsimp only
  split
  · rename_i hall
    apply Ensures.pure
    refine ⟨.refl c, (forall₂_of_filterMap_length hall.2).imp fun key pos hpos => ?_⟩
    exact (position_eq_some_iff c metricName key pos).mp hpos
  · apply Ensures.bind
    refine (lockForPositions_same c metricTable false).mono ?_
    rintro _ _ rfl
    apply Ensures.bind
    refine (positionLoop_grows keyNameArray (.refl _)
      fun hwf => maxPosition_above hwf metricName).mono ?_
    rintro found c₁ ⟨hgrows₁, -, hfound⟩
    apply Ensures.bind
    refine (createViewsFor_grows c₁ metricName false found.2).mono ?_
    intro _ c₂ hgrows₂
    apply Ensures.pure
    exact ⟨hgrows₁.trans hgrows₂, hfound.imp fun _ _ h => hgrows₂.extends_.position _ h⟩

theorem getNewPosForKey_exemplar_grows (c : Catalog) (metricName metricTable : String)
    (keyNameArray : List String) :
    Ensures (getNewPosForKey metricName metricTable keyNameArray true) c fun _ c' =>
      Grows c c' := by
  unfold getNewPosForKey
  apply Ensures.bind
  apply Ensures.get
  dsimp only
  split
  · exact Ensures.pure (.refl c)
  · apply Ensures.bind
    refine (lockForPositions_same c metricTable true).mono ?_
    rintro _ _ rfl
    apply Ensures.bind
    refine (positionLoop_exemplar_grows keyNameArray _ _).mono ?_
    intro found c₁ hgrows₁
    apply Ensures.bind
    refine (createViewsFor_grows c₁ metricName true found.2).mono ?_
    intro _ c₂ hgrows₂
    exact Ensures.pure (hgrows₁.trans hgrows₂)

theorem getOrCreateLabelKeyPos_grows (c : Catalog) (metricName key : String) :
    Ensures (getOrCreateLabelKeyPos metricName key) c fun pos c' =>
      Grows c c' ∧ ∃ p, pos = some p ∧ c'.HasPosition metricName key p := by
  unfold getOrCreateLabelKeyPos
  apply Ensures.bind
  apply Ensures.get
  split
  · rename_i pos hpos
    apply Ensures.pure
    exact ⟨.refl c, pos, rfl, (position_eq_some_iff c metricName key pos).mp hpos⟩
  · apply Ensures.bind
    refine (getOrCreateMetricTableName_grows c metricName).mono ?_
    intro m c₁ hgrows₁
    apply Ensures.bind
    refine (getNewPosForKey_grows c₁ metricName m.2 [key]).mono ?_
    rintro positions c₂ ⟨hgrows₂, hpositions⟩
    apply Ensures.pure
    cases hpositions with
    | cons hpos _ => exact ⟨hgrows₁.trans hgrows₂, _, rfl, hpos⟩

end Promscale.Catalog
