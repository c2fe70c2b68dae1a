import Promscale.Catalog.LabelArrays

/-!
# Creating series

The functions that return the id of a series, and create its row when there is none. They
end in one query, which looks for the array in the series table of the metric.
-/
namespace Promscale.Catalog

open Promscale.Lib

def checkViolation {α : Type} (relation : String) : Sql α :=
  raise ("new row for relation \"" ++ relation ++ "\" violates check constraint") "23514"

/-- The loop keeps its id, so a conflict on the id alone would send it round for ever. -/
def createSeries (metricId : Nat) (metricTableName : String) (labelArray : List Nat) : Sql Nat := do
  let c ← get
  match c.dataSeries metricTableName with
  | none => undefinedTable metricTableName
  | some t =>
    if hcheck : (Series.constraints t.metricId t.nameLabelId).check
        ⟨c.seriesIdSeq + 1, metricId, labelArray, none⟩ = true then
      match t.series.insert ⟨c.seriesIdSeq + 1, metricId, labelArray, none⟩ hcheck with
      | some series =>
        set { c.withSeries metricTableName t series with seriesIdSeq := c.seriesIdSeq + 1 }
        pure (c.seriesIdSeq + 1)
      | none =>
        match t.series.rows.find? fun s => s.labels = labelArray with
        | some s =>
          set { c with seriesIdSeq := c.seriesIdSeq + 1 }
          pure s.id
        | none => throw .loopsForever
    else checkViolation metricTableName

def resurrectSeriesIds (metricTable : String) (seriesId : Nat) : Sql Unit := do
  let c ← get
  match c.dataSeries metricTable with
  | none => undefinedTable metricTable
  | some t =>
    set (c.withSeries metricTable t
      (t.setDeleteEpoch fun s => if s.id = seriesId then none else s.deleteEpoch))

/-- `CASE WHEN delete_epoch IS NOT NULL THEN resurrect_series_ids(..) END`. -/
def resurrectIfMarked (tableName : String) (s : Series) : Sql Unit :=
  if s.deleteEpoch.isSome then resurrectSeriesIds tableName s.id else pure ()

/-- The query of the three functions below; `cte` computes the array. The rows it looks
through are those from before `cte` ran. -/
def existingOrCreated (metricId : Nat) (tableName : String) (cte : Sql (List Nat)) : Sql Nat := do
  match (← get).dataSeries tableName with
  | none => undefinedTable tableName
  | some t => do
    let labelArray ← cte
    match t.series.rows.find? fun s => s.labels = labelArray with
    | some s => do
      resurrectIfMarked tableName s
      pure s.id
    | none => createSeries metricId tableName labelArray

def metricTableOf (metricName : Option String) : Sql (Nat × String) :=
  match metricName with
  | none => nullMetricName
  | some metricName => getOrCreateMetricTableName metricName

def getOrCreateSeriesId (label : List (String × String)) : Sql Nat := do
  let mtn ← metricTableOf (label.lookup nameKey)
  existingOrCreated mtn.1 mtn.2 (getOrCreateLabelArray label)

/-- Returns the name of the table too. -/
def getOrCreateSeriesIdForKvArray (metricName : String) (kvs : List (String × String)) :
    Sql (String × Nat) := do
  let mtn ← getOrCreateMetricTableName metricName
  requireRelation (promData, mtn.2)
  let seriesId ← existingOrCreated mtn.1 mtn.2 (getOrCreateLabelArrayKv metricName kvs)
  pure (mtn.2, seriesId)

def getOrCreateSeriesIdForLabelArray (metricId : Nat) (tableName : String) (larray : List Nat) :
    Sql Nat :=
  existingOrCreated metricId tableName (pure larray)

/-! ## What they do -/

/-- What the query does once the array is there: it returns the live row of the array, and
changes nothing else but that row. -/
structure ReturnsSeries (c : Catalog) (T : String) (A : List Nat) (id : Nat) (c' : Catalog) :
    Prop where
  row : ∃ t, c'.dataSeries T = some t ∧ ∃ s ∈ t.series.rows,
    s.id = id ∧ s.labels = A ∧ s.deleteEpoch = none
  later : Later c c'
  wellFormed : c.WellFormed → c'.WellFormed
  metric : c'.metric = c.metric
  label : c'.label = c.label
  position : c'.labelKeyPosition = c.labelKeyPosition
  kept : ∀ T' id' labels, c.HasSeries T' id' labels → c'.HasSeries T' id' labels
  only : ∀ T' id' labels, c'.HasSeries T' id' labels → c.HasSeries T' id' labels ∨ labels = A
  marks : ∀ T' id' epoch, c'.HasMark T' id' epoch → c.HasMark T' id' epoch
  /-- A row that is not as before is the one returned, and is new or was marked. -/
  rows : ∀ T' t', c'.dataSeries T' = some t' → ∀ s' ∈ t'.series.rows,
    (∃ t, c.dataSeries T' = some t ∧ s' ∈ t.series.rows) ∨
      s'.id = id ∧ (c.seriesIdSeq < id ∨ ∃ epoch, c.HasMark T' id epoch)
  relations : c'.relations = c.relations
  userViews : c'.userViews = c.userViews
  views : c'.views = c.views
  epoch : SameEpoch c c'

theorem resurrected_returns {c : Catalog} {T : String} {t : SeriesTable}
    (ht : c.dataSeries T = some t) {s : Series} (hs : s ∈ t.series.rows) :
    ReturnsSeries c T s.labels s.id (c.withSeries T t
      (t.setDeleteEpoch fun s' => if s'.id = s.id then none else s'.deleteEpoch)) := by
  have hshrinks := setDeleteEpoch_shrinks ht fun s' => if s'.id = s.id then none else s'.deleteEpoch
  exact {
    row := ⟨_, withSeries_dataSeries.mpr (.inl ⟨rfl, rfl⟩), _,
      mem_setDeleteEpoch.mpr ⟨s, hs, rfl⟩, rfl, rfl, if_pos rfl⟩
    later := hshrinks.later
    wellFormed := hshrinks.wellFormed
    metric := rfl
    label := rfl
    position := rfl
    kept := fun T' id' labels => setDeleteEpoch_hasSeries ht _
    only := by
      rintro T' id' labels ⟨t', ht', s', hs', rfl, rfl⟩
      obtain ⟨t'', ht'', -, -, hrows⟩ := hshrinks.seriesTable T' t' ht'
      exact .inl ⟨t'', ht'', hrows s' hs'⟩
    marks := by
      intro T' id' epoch hmark
      rcases setDeleteEpoch_hasMark hmark with ⟨rfl, s', hs', hid, hepoch⟩ | ⟨-, hmark⟩
      · split at hepoch
        · cases hepoch
        · exact ⟨t, ht, s', hs', hid, hepoch⟩
      · exact hmark
    rows := by
      intro T' t' ht' s' hs'
      rcases withSeries_dataSeries.mp ht' with ⟨rfl, rfl⟩ | ⟨-, ht'⟩
      · obtain ⟨s₀, hs₀, rfl⟩ := mem_setDeleteEpoch.mp hs'
        split
        · rename_i hid
          have hsame := t.series.eq_of_conflict hs₀ hs (by simp [Series.constraints, hid])
          subst hsame
          cases hmark : s₀.deleteEpoch with
          | none => exact .inl ⟨t, ht, by rw [← hmark]; exact hs₀⟩
          | some epoch => exact .inr ⟨rfl, .inr ⟨epoch, t, ht, s₀, hs₀, rfl, hmark⟩⟩
        · exact .inl ⟨t, ht, hs₀⟩
      · exact .inl ⟨t', ht', hs'⟩
    relations := rfl
    userViews := rfl
    views := rfl
    epoch := ⟨rfl, rfl, rfl⟩ }

/-- An existing row that is live is returned as it is. -/
theorem live_returns {c : Catalog} {T : String} {t : SeriesTable} (ht : c.dataSeries T = some t)
    {s : Series} (hs : s ∈ t.series.rows) (hlive : s.deleteEpoch = none) :
    ReturnsSeries c T s.labels s.id c where
  row := ⟨t, ht, s, hs, rfl, rfl, hlive⟩
  later := .refl c
  wellFormed := id
  metric := rfl
  label := rfl
  position := rfl
  kept _ _ _ h := h
  only _ _ _ h := .inl h
  marks _ _ _ h := h
  rows _ t' ht' _ hs' := .inl ⟨t', ht', hs'⟩
  relations := rfl
  userViews := rfl
  views := rfl
  epoch := .refl c

section Creating
variable {c : Catalog} {T : String} {t : SeriesTable} (ht : c.dataSeries T = some t)
  {metricId : Nat} {A : List Nat} {hcheck}
  {series : Table Series (Series.constraints t.metricId t.nameLabelId)}
  (h : t.series.insert ⟨c.seriesIdSeq + 1, metricId, A, none⟩ hcheck = some series)
include ht h

theorem created_rows {T' : String} {t' : SeriesTable}
    (ht' : (c.withSeries T t series).dataSeries T' = some t') {s' : Series}
    (hs' : s' ∈ t'.series.rows) : (∃ t, c.dataSeries T' = some t ∧ s' ∈ t.series.rows) ∨
      T' = T ∧ s' = ⟨c.seriesIdSeq + 1, metricId, A, none⟩ := by
  rcases withSeries_dataSeries.mp ht' with ⟨rfl, rfl⟩ | ⟨-, ht'⟩
  · rcases (Table.mem_insert h s').mp hs' with hold | rfl
    · exact .inl ⟨t, ht, hold⟩
    · exact .inr ⟨rfl, rfl⟩
  · exact .inl ⟨t', ht', hs'⟩

/-- The new id is none that any table has. -/
theorem created_wellFormed (hwf : c.WellFormed) :
    WellFormed { c.withSeries T t series with seriesIdSeq := c.seriesIdSeq + 1 } where
  labelId := hwf.labelId
  posOne := hwf.posOne
  posKey := hwf.posKey
  viewSchema := hwf.viewSchema
  seriesTable T' t' ht' := by
    rcases withSeries_dataSeries.mp ht' with ⟨rfl, rfl⟩ | ⟨-, ht'⟩
    · exact hwf.seriesTable T' t ht
    · exact hwf.seriesTable T' t' ht'
  seriesId T' t' ht' s' hs' := by
    rcases created_rows ht h ht' hs' with ⟨t, ht, hs⟩ | ⟨-, rfl⟩
    · exact Nat.le_succ_of_le (hwf.seriesId T' t ht s' hs)
    · exact Nat.le_refl _
  seriesDisjoint T₁ t₁ T₂ t₂ ht₁ ht₂ s₁ hs₁ s₂ hs₂ heq := by
    rcases created_rows ht h ht₁ hs₁ with ⟨t₁, ht₁, hs₁⟩ | ⟨hT₁, rfl⟩
    · rcases created_rows ht h ht₂ hs₂ with ⟨t₂, ht₂, hs₂⟩ | ⟨-, rfl⟩
      · exact hwf.seriesDisjoint T₁ t₁ T₂ t₂ ht₁ ht₂ s₁ hs₁ s₂ hs₂ heq
      · have hle := hwf.seriesId T₁ t₁ ht₁ s₁ hs₁
        dsimp only at heq
        omega
    · rcases created_rows ht h ht₂ hs₂ with ⟨t₂, ht₂, hs₂⟩ | ⟨hT₂, rfl⟩
      · have hle := hwf.seriesId T₂ t₂ ht₂ s₂ hs₂
        dsimp only at heq
        omega
      · exact hT₁.trans hT₂.symm

/-- A new row takes the next id of the sequence. -/
theorem created_returns : ReturnsSeries c T A (c.seriesIdSeq + 1)
    { c.withSeries T t series with seriesIdSeq := c.seriesIdSeq + 1 } where
  row := ⟨_, withSeries_dataSeries.mpr (.inl ⟨rfl, rfl⟩), _, (Table.mem_insert h _).mpr (.inr rfl),
    rfl, rfl, rfl⟩
  later := {
    labelIdSeq := Nat.le_refl _
    label := fun l hl _ => hl
    seriesIdSeq := Nat.le_succ _
    series := fun T' t' ht' s' hs' hid => by
      rcases created_rows ht h ht' hs' with ⟨t, ht, hs⟩ | ⟨-, rfl⟩
      · exact ⟨t, ht, s', hs, rfl, rfl⟩
      · dsimp only at hid
        omega }
  wellFormed := created_wellFormed ht h
  metric := rfl
  label := rfl
  position := rfl
  kept := by
    rintro T' id' labels ⟨t', ht', s', hs', rfl, rfl⟩
    by_cases hT : T' = T
    · subst hT
      rw [ht, Option.some_inj] at ht'
      subst ht'
      exact ⟨_, withSeries_dataSeries.mpr (.inl ⟨rfl, rfl⟩), s',
        (Table.mem_insert h s').mpr (.inl hs'), rfl, rfl⟩
    · exact ⟨t', withSeries_dataSeries.mpr (.inr ⟨hT, ht'⟩), s', hs', rfl, rfl⟩
  only := by
    rintro T' id' labels ⟨t', ht', s', hs', rfl, rfl⟩
    rcases created_rows ht h ht' hs' with ⟨t, ht, hs⟩ | ⟨-, rfl⟩
    · exact .inl ⟨t, ht, s', hs, rfl, rfl⟩
    · exact .inr rfl
  marks := by
    rintro T' id' epoch ⟨t', ht', s', hs', hid, hmark⟩
    rcases created_rows ht h ht' hs' with ⟨t, ht, hs⟩ | ⟨-, rfl⟩
    · exact ⟨t, ht, s', hs, hid, hmark⟩
    · cases hmark
  rows T' t' ht' s' hs' := by
    rcases created_rows ht h ht' hs' with ⟨t, ht, hs⟩ | ⟨-, rfl⟩
    · exact .inl ⟨t, ht, hs⟩
    · exact .inr ⟨rfl, .inl (Nat.lt_succ_self _)⟩
  relations := rfl
  userViews := rfl
  views := rfl
  epoch := ⟨rfl, rfl, rfl⟩

end Creating

theorem createSeries_returns {c : Catalog} {T : String} {t : SeriesTable}
    (ht : c.dataSeries T = some t) (metricId : Nat) {A : List Nat}
    (hnew : ∀ s ∈ t.series.rows, s.labels ≠ A) :
    Ensures (createSeries metricId T A) c (ReturnsSeries c T A) := by
  unfold createSeries
  apply Ensures.bind
  apply Ensures.get
  rw [ht]
  dsimp only
  split
  · split
    · rename_i series h
      apply Ensures.bind
      apply Ensures.set
      apply Ensures.pure
      exact created_returns ht h
    · split
      · rename_i s hfind
        have hlabels := List.find?_some hfind
        exact absurd (of_decide_eq_true hlabels) (hnew s (List.mem_of_find?_eq_some hfind))
      · exact Ensures.throw
  · exact Ensures.throw

theorem resurrectIfMarked_returns {c : Catalog} {T : String} {t : SeriesTable}
    (ht : c.dataSeries T = some t) {s : Series} (hs : s ∈ t.series.rows) :
    Ensures (resurrectIfMarked T s) c fun _ c' => ReturnsSeries c T s.labels s.id c' := by
  unfold resurrectIfMarked
  split
  · unfold resurrectSeriesIds
    apply Ensures.bind
    apply Ensures.get
    rw [ht]
    apply Ensures.set
    exact resurrected_returns ht hs
  · rename_i hlive
    apply Ensures.pure
    exact live_returns ht hs (by simpa using hlive)

theorem existingOrCreated_returns {c : Catalog} (metricId : Nat) (T : String) {cte : Sql (List Nat)}
    (post : List Nat → Catalog → Prop)
    (hcte : Ensures cte c fun A c₁ => Extends c c₁ ∧ post A c₁) :
    Ensures (existingOrCreated metricId T cte) c fun id c' =>
      ∃ A c₁, post A c₁ ∧ ReturnsSeries c₁ T A id c' := by
  unfold existingOrCreated
  apply Ensures.bind
  apply Ensures.get
  split
  · exact Ensures.throw
  · rename_i t ht
    apply Ensures.bind
    refine hcte.mono ?_
    rintro A c₁ ⟨hextends, hpost⟩
    have ht₁ := hextends.dataSeries T t ht
    split
    · rename_i s hfind
      have hlabels := List.find?_some hfind
      simp only [decide_eq_true_eq] at hlabels
      subst hlabels
      apply Ensures.bind
      refine (resurrectIfMarked_returns ht₁ (List.mem_of_find?_eq_some hfind)).mono ?_
      intro _ c' hreturns
      apply Ensures.pure
      exact ⟨s.labels, c₁, hpost, hreturns⟩
    · rename_i hnone
      have hnew : ∀ s ∈ t.series.rows, s.labels ≠ A := by simpa using hnone
      refine (createSeries_returns ht₁ metricId hnew).mono ?_
      intro id c' hreturns
      exact ⟨A, c₁, hpost, hreturns⟩

theorem ReturnsArray.of_grows {c₀ c c' : Catalog} {metricName : String} {L : List (String × String)}
    {A : List Nat} (hgrows : Grows c₀ c) (h : ReturnsArray c metricName L A c') :
    ReturnsArray c₀ metricName L A c' where
  grows := hgrows.trans h.grows
  label := h.label
  encodes hwf := h.encodes (hgrows.wellFormed hwf)

theorem getOrCreateSeriesId_returns (c : Catalog) {metricName : String}
    {label : List (String × String)} (hname : label.lookup nameKey = some metricName) :
    Ensures (getOrCreateSeriesId label) c fun id c' => ∃ A T c₁,
      ReturnsArray c metricName label A c₁ ∧ ReturnsSeries c₁ T A id c' := by
  unfold getOrCreateSeriesId
  rw [hname]
  apply Ensures.bind
  refine (getOrCreateMetricTableName_grows c metricName).mono ?_
  intro mtn c₀ hgrows₀
  refine (existingOrCreated_returns mtn.1 mtn.2 _
    ((getOrCreateLabelArray_returns c₀ hname).mono fun A c₁ h => ⟨h.grows.extends_, h⟩)).mono ?_
  rintro id c' ⟨A, c₁, harray, hseries⟩
  exact ⟨A, mtn.2, c₁, harray.of_grows hgrows₀, hseries⟩

theorem getOrCreateSeriesId_nameless (c : Catalog) {label : List (String × String)}
    (hname : label.lookup nameKey = none) {post : Nat → Catalog → Prop} :
    Ensures (getOrCreateSeriesId label) c post := by
  unfold getOrCreateSeriesId
  rw [hname]
  exact Ensures.bind Ensures.throw

theorem getOrCreateSeriesIdForKvArray_returns (c : Catalog) (metricName : String)
    (kvs : List (String × String)) :
    Ensures (getOrCreateSeriesIdForKvArray metricName kvs) c fun found c' => ∃ A c₁,
      ReturnsArray c metricName kvs A c₁ ∧ ReturnsSeries c₁ found.1 A found.2 c' := by
  unfold getOrCreateSeriesIdForKvArray
  apply Ensures.bind
  refine (getOrCreateMetricTableName_grows c metricName).mono ?_
  intro mtn c₀ hgrows₀
  apply Ensures.bind
  refine (requireRelation_same c₀ (promData, mtn.2)).mono ?_
  rintro _ _ rfl
  apply Ensures.bind
  refine (existingOrCreated_returns mtn.1 mtn.2 _
    ((getOrCreateLabelArrayKv_returns _ metricName kvs).mono
      fun A c₁ h => ⟨h.grows.extends_, h⟩)).mono ?_
  rintro id c' ⟨A, c₁, harray, hseries⟩
  apply Ensures.pure
  exact ⟨A, c₁, harray.of_grows hgrows₀, hseries⟩

theorem getOrCreateSeriesIdForLabelArray_returns (c : Catalog) (metricId : Nat) (tableName : String)
    (larray : List Nat) :
    Ensures (getOrCreateSeriesIdForLabelArray metricId tableName larray) c
      (ReturnsSeries c tableName larray) := by
  unfold getOrCreateSeriesIdForLabelArray
  refine (existingOrCreated_returns metricId tableName (fun A c₁ => A = larray ∧ c₁ = c)
    (Ensures.pure ⟨.refl c, rfl, rfl⟩)).mono ?_
  rintro id c' ⟨A, c₁, ⟨rfl, rfl⟩, hseries⟩
  exact hseries

/-- The call returns for an array that has a row or passes the checks of the table. -/
theorem getOrCreateSeriesIdForLabelArray_checks (c : Catalog) (metricId : Nat) (tableName : String)
    (larray : List Nat) :
    Ensures (getOrCreateSeriesIdForLabelArray metricId tableName larray) c fun _ _ =>
      ∃ t, c.dataSeries tableName = some t ∧ ((∃ s ∈ t.series.rows, s.labels = larray) ∨
        metricId = t.metricId ∧ larray.head? = some t.nameLabelId) := by
  unfold getOrCreateSeriesIdForLabelArray existingOrCreated
  apply Ensures.bind
  apply Ensures.get
  split
  · exact Ensures.throw
  · rename_i t ht
    apply Ensures.bind
    apply Ensures.pure
    split
    · rename_i s hfind
      have hlabels := List.find?_some hfind
      rintro _ _ -
      exact ⟨t, ht, .inl ⟨s, List.mem_of_find?_eq_some hfind, of_decide_eq_true hlabels⟩⟩
    · unfold createSeries
      apply Ensures.bind
      apply Ensures.get
      rw [ht]
      dsimp only
      split
      · rename_i hcheck
        rintro _ _ -
        simp only [Series.constraints, Bool.and_eq_true, decide_eq_true_eq] at hcheck
        exact ⟨t, rfl, .inr hcheck.symm⟩
      · exact Ensures.throw

/-- An array that passes the checks of the table gets a row. -/
theorem getOrCreateSeriesIdForLabelArray_creates {c : Catalog} (hwf : c.WellFormed)
    {tableName : String} {t : SeriesTable} (ht : c.dataSeries tableName = some t)
    {larray : List Nat} (hname : larray.head? = some t.nameLabelId)
    (hnew : ∀ s ∈ t.series.rows, s.labels ≠ larray) :
    ∃ r, (getOrCreateSeriesIdForLabelArray t.metricId tableName larray).run c = .ok r := by
  have hcheck : (Series.constraints t.metricId t.nameLabelId).check
      ⟨c.seriesIdSeq + 1, t.metricId, larray, none⟩ = true := by
    simp [Series.constraints, hname]
  have hfind : (t.series.rows.find? fun s => decide (s.labels = larray)) = none := by
    simpa using hnew
  have hrun : (getOrCreateSeriesIdForLabelArray t.metricId tableName larray).run c =
      (createSeries t.metricId tableName larray).run c := by
    unfold getOrCreateSeriesIdForLabelArray existingOrCreated
    rw [StateT.run_bind]
    change StateT.run (match c.dataSeries tableName with
      | none => _
      | some t => _) c = _
    rw [ht]
    change StateT.run (match t.series.rows.find? fun s => decide (s.labels = larray) with
      | some s => _
      | none => _) c = _
    rw [hfind]
  rw [hrun]
  cases hinsert : t.series.insert ⟨c.seriesIdSeq + 1, t.metricId, larray, none⟩ hcheck with
  | none =>
    obtain ⟨s, hs, hconflict⟩ := (Table.insert_eq_none_iff _ _ _).mp hinsert
    have hid := hwf.seriesId tableName t ht s hs
    simp only [Series.constraints, Bool.or_eq_true, decide_eq_true_eq] at hconflict
    rcases hconflict with hid' | hlabels
    · omega
    · exact absurd hlabels (hnew s hs)
  | some series =>
    unfold createSeries
    rw [StateT.run_bind]
    refine ⟨(c.seriesIdSeq + 1, { c.withSeries tableName t series with
      seriesIdSeq := c.seriesIdSeq + 1 }), ?_⟩
    change StateT.run (match c.dataSeries tableName with
      | none => _
      | some t => _) c = _
    simp only [ht, hcheck, dite_true, hinsert]
    rfl

end Promscale.Catalog
