import Promscale.Lib.Run
import Promscale.Catalog.Retention
import Promscale.Catalog.Series

/-!
# Runs of the catalog

The operations on a catalog, each taken as atomic. A call that fails changes nothing; the
ids it has drawn from sequences are lost, which is an operation of its own here. Inserting
samples and filling views are the business of others, who may do so as they please.
-/
namespace Promscale.Catalog

open Promscale.Lib

inductive Op where
  | getOrCreateMetricTableName (metricName : String)
  | finalizeMetricCreation (random : Nat → Nat)
  | getOrCreateLabelId (keyName valueName : String)
  | getNewPosForKey (metricName metricTable : String) (keyNameArray : List String)
      (isForExemplar : Bool)
  | getOrCreateLabelKeyPos (metricName key : String)
  | getOrCreateLabelIds (metricName metricTable : String) (kvs : List (String × String))
  | getOrCreateLabelArray (js : List (String × String))
  | getOrCreateLabelArrayKv (metricName : String) (kvs : List (String × String))
  | getOrCreateSeriesId (label : List (String × String))
  | getOrCreateSeriesIdForKvArray (metricName : String) (kvs : List (String × String))
  | getOrCreateSeriesIdForLabelArray (metricId : Nat) (tableName : String) (larray : List Nat)
  | insertSamples (tableName : String) (samples : List Sample)
  | createUserView (view : UserView) (samples : List Sample)
  | changeUserView (view : String × String) (samples : List Sample)
  | dropUserView (view : String × String)
  | registerMetricView (schemaName viewName : String) (ifNotExists : Bool)
  | unregisterMetricView (schemaName viewName : String) (ifExists : Bool)
  | deleteSeriesFromMetric (name : String) (seriesIds : List Nat)
  | markSeriesToBeDroppedAsUnused (metricSchema metricTable metricSeriesTable : String)
      (dropPoint : Int)
  | dropMetricChunkData (schemaName metricName : String) (olderThan : Int) (chunkEnd : Int → Int)
  | deleteExpiredSeries (metricSchema metricTable metricSeriesTable : String)
      (ranAt presentEpoch lastUpdatedEpoch now : Int)
  | dropMetric (metricName : String) (scan : Nat)
  | loseIds (metricIds labelIds labelKeyIds seriesIds : Nat)

/-- The rows a client inserts into a data table. -/
def insertSamples (tableName : String) (samples : List Sample) : Sql Unit := do
  let c ← get
  match c.relations (promData, tableName) with
  | none => undefinedTable tableName
  | some olds =>
    set { c with
      relations := assign c.relations (promData, tableName) (some (olds ++ samples)) }

/-- What a view shows changes with what it reads, or when it is materialised. -/
def changeUserView (view : String × String) (samples : List Sample) : Sql Unit := do
  let c ← get
  match c.findUserView view with
  | none => undefinedTable view.2
  | some _ => set { c with relations := assign c.relations view (some samples) }

def loseIds (c : Catalog) (metricIds labelIds labelKeyIds seriesIds : Nat) : Catalog :=
  { c with
    metricIdSeq := c.metricIdSeq + metricIds
    labelIdSeq := c.labelIdSeq + labelIds
    labelKeyIdSeq := c.labelKeyIdSeq + labelKeyIds
    seriesIdSeq := c.seriesIdSeq + seriesIds }

/-- The operation without what it returns. -/
def Op.call : Op → Sql Unit
  | getOrCreateMetricTableName metricName => do
    let _ ← Catalog.getOrCreateMetricTableName metricName
  | finalizeMetricCreation random => modify (Catalog.finalizeMetricCreation random)
  | getOrCreateLabelId keyName valueName => do
    let _ ← Catalog.getOrCreateLabelId keyName valueName
  | getNewPosForKey metricName metricTable keyNameArray isForExemplar => do
    let _ ← Catalog.getNewPosForKey metricName metricTable keyNameArray isForExemplar
  | getOrCreateLabelKeyPos metricName key => do
    let _ ← Catalog.getOrCreateLabelKeyPos metricName key
  | getOrCreateLabelIds metricName metricTable kvs => do
    let _ ← Catalog.getOrCreateLabelIds metricName metricTable kvs
  | getOrCreateLabelArray js => do
    let _ ← Catalog.getOrCreateLabelArray js
  | getOrCreateLabelArrayKv metricName kvs => do
    let _ ← Catalog.getOrCreateLabelArrayKv metricName kvs
  | getOrCreateSeriesId label => do
    let _ ← Catalog.getOrCreateSeriesId label
  | getOrCreateSeriesIdForKvArray metricName kvs => do
    let _ ← Catalog.getOrCreateSeriesIdForKvArray metricName kvs
  | getOrCreateSeriesIdForLabelArray metricId tableName larray => do
    let _ ← Catalog.getOrCreateSeriesIdForLabelArray metricId tableName larray
  | insertSamples tableName samples => Catalog.insertSamples tableName samples
  | createUserView view samples => Catalog.createUserView view samples
  | changeUserView view samples => Catalog.changeUserView view samples
  | dropUserView view => Catalog.dropUserView view
  | registerMetricView schemaName viewName ifNotExists => do
    let _ ← Catalog.registerMetricView schemaName viewName ifNotExists
  | unregisterMetricView schemaName viewName ifExists => do
    let _ ← Catalog.unregisterMetricView schemaName viewName ifExists
  | deleteSeriesFromMetric name seriesIds => Catalog.deleteSeriesFromMetric name seriesIds
  | markSeriesToBeDroppedAsUnused metricSchema metricTable metricSeriesTable dropPoint =>
    Catalog.markSeriesToBeDroppedAsUnused metricSchema metricTable metricSeriesTable dropPoint
  | dropMetricChunkData schemaName metricName olderThan chunkEnd =>
    Catalog.dropMetricChunkData schemaName metricName olderThan chunkEnd
  | deleteExpiredSeries metricSchema metricTable metricSeriesTable ranAt presentEpoch
      lastUpdatedEpoch now =>
    Catalog.deleteExpiredSeries metricSchema metricTable metricSeriesTable ranAt presentEpoch
      lastUpdatedEpoch now
  | dropMetric metricName scan => Catalog.dropMetric metricName scan
  | loseIds metricIds labelIds labelKeyIds seriesIds =>
    modify fun c => c.loseIds metricIds labelIds labelKeyIds seriesIds

/-- A call that fails is rolled back. -/
def step (c : Catalog) (op : Op) : Catalog :=
  match op.call.run c with
  | .ok (_, c') => c'
  | .error _ => c

theorem step_induct {c : Catalog} {op : Op} (post : Catalog → Prop) (hfails : post c)
    (hreturns : ∀ c', op.call.run c = .ok ((), c') → post c') : post (step c op) := by
  unfold step
  split
  · rename_i c' hrun
    exact hreturns c' hrun
  · exact hfails

/-- The operations that mark series for deletion. -/
def Op.IsMarking : Op → Prop
  | deleteSeriesFromMetric .. => True
  | markSeriesToBeDroppedAsUnused .. => True
  | _ => False

def Op.isDeleteExpiredSeries : Op → Bool
  | deleteExpiredSeries .. => true
  | _ => false

/-- Everything an operation can do. -/
inductive Op.Effect (c : Catalog) (op : Op) (c' : Catalog) : Prop
  | grows (h : Grows c c')
  | series (c₁ : Catalog) (T : String) (A : List Nat) (id : Nat) (hgrows : Grows c c₁)
      (hlabel : ∀ i ∈ A, i ≠ 0 → ∃ l ∈ c₁.label.rows, l.id = i) (h : ReturnsSeries c₁ T A id c')
  | labelArray (metricId : Nat) (T : String) (A : List Nat) (id : Nat)
      (hop : op = .getOrCreateSeriesIdForLabelArray metricId T A) (h : ReturnsSeries c T A id c')
  | keeps (h : Keeps c c')
  | marks (T : String) (t : SeriesTable) (ids : List Nat)
      (relations : String × String → Option (List Sample)) (hop : op.IsMarking)
      (ht : c.dataSeries T = some t) (h : c' =
        { c.withSeries T t (markSeries t ids c.currentEpoch) with relations := relations })
  | deletesExpired (metricSchema metricTable T : String)
      (ranAt presentEpoch lastUpdatedEpoch now : Int) (samples : List Sample) (t : SeriesTable)
      (hop : op = .deleteExpiredSeries metricSchema metricTable T ranAt presentEpoch
        lastUpdatedEpoch now)
      (hsamples : c.readSamples (metricSchema, metricTable) ["series_id"] = some samples)
      (ht : c.dataSeries T = some t)
      (h : c' = (c.deleteExpired samples T t (presentEpoch - 4)).updateEpoch ranAt presentEpoch
        lastUpdatedEpoch now)
  | drops (metricName : String) (scan : Nat) (hop : op = .dropMetric metricName scan)
      (h : Shrinks c c') (hepoch : SameEpoch c c') (hlabel : c'.label = c.label)
      (hposition : ∀ p ∈ c.labelKeyPosition.rows, p.metricName ≠ metricName →
        p ∈ c'.labelKeyPosition.rows)
      (hdataSeries : ∀ T t, c'.dataSeries T = some t → c.dataSeries T = some t)

theorem discard_ensures {α : Type} {x : Sql α} {c : Catalog} {post : Catalog → Prop}
    (h : Ensures x c fun _ c' => post c') :
    Ensures (do let _ ← x) c fun _ c' => post c' :=
  Ensures.bind (h.mono fun _ _ hpost => Ensures.pure hpost)

theorem call_effect {c : Catalog} (hwf : c.WellFormed) (op : Op) :
    Ensures op.call c fun _ c' => op.Effect c c' := by
  cases op with
  | getOrCreateMetricTableName metricName =>
    exact discard_ensures ((getOrCreateMetricTableName_grows c metricName).mono fun _ _ h => .grows h)
  | finalizeMetricCreation random =>
    exact Ensures.modifyState (.keeps (finalizeMetricCreation_keeps random c))
  | getOrCreateLabelId keyName valueName =>
    exact discard_ensures ((getOrCreateLabelId_grows c keyName valueName).mono
      fun _ _ h => .grows h.1)
  | getNewPosForKey metricName metricTable keyNameArray isForExemplar =>
    apply discard_ensures
    cases isForExemplar with
    | false =>
      exact (getNewPosForKey_grows c metricName metricTable keyNameArray).mono
        fun _ _ h => .grows h.1
    | true =>
      exact (getNewPosForKey_exemplar_grows c metricName metricTable keyNameArray).mono
        fun _ _ h => .grows h
  | getOrCreateLabelKeyPos metricName key =>
    exact discard_ensures ((getOrCreateLabelKeyPos_grows c metricName key).mono
      fun _ _ h => .grows h.1)
  | getOrCreateLabelIds metricName metricTable kvs =>
    exact discard_ensures ((getOrCreateLabelIds_returns c metricName metricTable kvs).mono
      fun _ _ h => .grows h.1)
  | getOrCreateLabelArray js =>
    apply discard_ensures
    cases hname : js.lookup nameKey with
    | none =>
      refine (getOrCreateLabelArray_nameless c hname).mono ?_
      rintro _ _ ⟨rfl, -⟩
      exact .grows (.refl _)
    | some metricName =>
      exact (getOrCreateLabelArray_returns c hname).mono fun _ _ h => .grows h.grows
  | getOrCreateLabelArrayKv metricName kvs =>
    exact discard_ensures ((getOrCreateLabelArrayKv_returns c metricName kvs).mono
      fun _ _ h => .grows h.grows)
  | getOrCreateSeriesId label =>
    apply discard_ensures
    cases hname : label.lookup nameKey with
    | none => exact getOrCreateSeriesId_nameless c hname
    | some metricName =>
      refine (getOrCreateSeriesId_returns c hname).mono ?_
      rintro id c' ⟨A, T, c₁, harray, hseries⟩
      exact .series c₁ T A id harray.grows harray.label hseries
  | getOrCreateSeriesIdForKvArray metricName kvs =>
    apply discard_ensures
    refine (getOrCreateSeriesIdForKvArray_returns c metricName kvs).mono ?_
    rintro found c' ⟨A, c₁, harray, hseries⟩
    exact .series c₁ _ A _ harray.grows harray.label hseries
  | getOrCreateSeriesIdForLabelArray metricId tableName larray =>
    apply discard_ensures
    refine (getOrCreateSeriesIdForLabelArray_returns c metricId tableName larray).mono ?_
    intro id c' h
    exact .labelArray metricId tableName larray id rfl h
  | insertSamples tableName samples =>
    apply Ensures.bind
    apply Ensures.get
    split
    · exact Ensures.throw
    · exact Ensures.set (.keeps { Keeps.refl c with epoch := ⟨rfl, rfl, rfl⟩ })
  | createUserView view samples =>
    exact (createUserView_keeps c view samples).mono fun _ _ h => .keeps h
  | changeUserView view samples =>
    apply Ensures.bind
    apply Ensures.get
    split
    · exact Ensures.throw
    · exact Ensures.set (.keeps { Keeps.refl c with epoch := ⟨rfl, rfl, rfl⟩ })
  | dropUserView view => exact (dropUserView_keeps c view).mono fun _ _ h => .keeps h
  | registerMetricView schemaName viewName ifNotExists =>
    exact discard_ensures ((registerMetricView_grows c schemaName viewName ifNotExists).mono
      fun _ _ h => .grows h)
  | unregisterMetricView schemaName viewName ifExists =>
    exact discard_ensures ((unregisterMetricView_keeps hwf schemaName viewName ifExists).mono
      fun _ _ h => .keeps h)
  | deleteSeriesFromMetric name seriesIds =>
    refine (deleteSeriesFromMetric_effects c name seriesIds).mono ?_
    rintro _ _ ⟨relations, T, t, ids, ht, rfl⟩
    exact .marks T t ids relations trivial ht rfl
  | markSeriesToBeDroppedAsUnused metricSchema metricTable metricSeriesTable dropPoint =>
    refine (markSeriesToBeDroppedAsUnused_effects c _ _ _ dropPoint).mono ?_
    rintro _ _ ⟨t, ids, ht, rfl⟩
    exact .marks metricSeriesTable t ids c.relations trivial ht rfl
  | dropMetricChunkData schemaName metricName olderThan chunkEnd =>
    refine (dropMetricChunkData_effects c schemaName metricName olderThan chunkEnd).mono ?_
    rintro _ _ (rfl | ⟨relation, p, samples, -, rfl⟩)
    · exact .keeps (.refl _)
    · exact .keeps { Keeps.refl c with epoch := ⟨rfl, rfl, rfl⟩ }
  | deleteExpiredSeries metricSchema metricTable T ranAt presentEpoch lastUpdatedEpoch now =>
    refine (deleteExpiredSeries_effects c _ _ _ _ _ _ _).mono ?_
    rintro _ c' ⟨samples, t, hsamples, ht, h⟩
    exact .deletesExpired _ _ T _ _ _ _ samples t rfl hsamples ht h
  | dropMetric metricName scan =>
    refine (dropMetric_shrinks c metricName scan).mono ?_
    rintro _ c' ⟨hshrinks, hepoch, hlabel, hposition, hdataSeries⟩
    exact .drops metricName scan rfl hshrinks hepoch hlabel hposition hdataSeries
  | loseIds metricIds labelIds labelKeyIds seriesIds =>
    apply Ensures.modifyState
    exact .keeps {
      Keeps.refl c with
      labelIdSeq := Nat.le_add_right _ _
      seriesIdSeq := Nat.le_add_right _ _
      epoch := ⟨rfl, rfl, rfl⟩ }

theorem step_effect {c : Catalog} (hwf : c.WellFormed) (op : Op) : op.Effect c (step c op) :=
  step_induct (op.Effect c) (.grows (.refl c)) fun c' hrun => call_effect hwf op () c' hrun

theorem step_deleteExpiredSeries {c : Catalog} {metricSchema metricTable T : String}
    {ranAt presentEpoch lastUpdatedEpoch now : Int} {samples : List Sample} {t : SeriesTable}
    (hsamples : c.readSamples (metricSchema, metricTable) ["series_id"] = some samples)
    (ht : c.dataSeries T = some t) :
    step c (.deleteExpiredSeries metricSchema metricTable T ranAt presentEpoch lastUpdatedEpoch now) =
      (c.deleteExpired samples T t (presentEpoch - 4)).updateEpoch ranAt presentEpoch
        lastUpdatedEpoch now := by
  have hfirst : (deleteDeadSeries metricSchema metricTable T (presentEpoch - 4)).run c = .ok
      (((t.series.rows.filter (isDeleted (presentEpoch - 4)
        (deadSeries samples t (presentEpoch - 4)))).flatMap (·.labels)).dedup,
      c.withSeries T t (deleteOrResurrect t (presentEpoch - 4)
        (deadSeries samples t (presentEpoch - 4)))) := by
    unfold deleteDeadSeries
    rw [StateT.run_bind, StateT.run_get, pure_bind, ht]
    dsimp only
    rw [run_bind_of_ok (selectSamples_run hsamples)]
    rfl
  have hrun : (Op.call (.deleteExpiredSeries metricSchema metricTable T ranAt presentEpoch
      lastUpdatedEpoch now)).run c = .ok ((), (c.deleteExpired samples T t
        (presentEpoch - 4)).updateEpoch ranAt presentEpoch lastUpdatedEpoch now) := by
    change (deleteExpiredSeries metricSchema metricTable T ranAt presentEpoch lastUpdatedEpoch
      now).run c = _
    unfold deleteExpiredSeries
    rw [StateT.run_bind, hfirst]
    rfl
  unfold step
  rw [hrun]

/-- Without the tables the call fails. -/
theorem step_deleteExpiredSeries_none {c : Catalog} {metricSchema metricTable T : String}
    {ranAt presentEpoch lastUpdatedEpoch now : Int}
    (h : c.readSamples (metricSchema, metricTable) ["series_id"] = none ∨ c.dataSeries T = none) :
    step c (.deleteExpiredSeries metricSchema metricTable T ranAt presentEpoch lastUpdatedEpoch now) =
      c := by
  refine step_induct (· = c) rfl fun c' hrun => ?_
  obtain ⟨samples, t, hsamples, ht, -⟩ :=
    deleteExpiredSeries_effects c metricSchema metricTable T _ _ _ _ _ c' hrun
  rcases h with h | h
  · rw [h] at hsamples
    cases hsamples
  · rw [h] at ht
    cases ht

theorem step_of_discard {α : Type} {c c' : Catalog} {op : Op} {x : Sql α} {a : α}
    (hop : op.call = do let _ ← x) (hrun : x.run c = .ok (a, c')) : step c op = c' := by
  have hcall : op.call.run c = .ok ((), c') := by
    rw [hop, StateT.run_bind, hrun]
    rfl
  unfold step
  rw [hcall]

/-! ## What every run keeps -/

theorem marks_shrinks {c c' : Catalog} {T : String} {t : SeriesTable} {ids : List Nat}
    {relations : String × String → Option (List Sample)} (ht : c.dataSeries T = some t)
    (h : c' = { c.withSeries T t (markSeries t ids c.currentEpoch) with relations := relations }) :
    Shrinks c c' := by
  rw [h]
  exact { setDeleteEpoch_shrinks ht _ with }

theorem step_wellFormed {c : Catalog} (hwf : c.WellFormed) (op : Op) : (step c op).WellFormed := by
  cases step_effect hwf op with
  | grows h => exact h.wellFormed hwf
  | series c₁ T A id hgrows hlabel h => exact h.wellFormed (hgrows.wellFormed hwf)
  | labelArray metricId T A id hop h => exact h.wellFormed hwf
  | keeps h => exact h.shrinks.wellFormed hwf
  | marks T t ids relations hop ht h => exact (marks_shrinks ht h).wellFormed hwf
  | deletesExpired _ _ T ranAt presentEpoch lastUpdatedEpoch now samples t hop hsamples ht h =>
    rw [h]
    exact (updateEpoch_shrinks _ _ _ _ _).wellFormed
      ((deleteExpired_shrinks ht _).wellFormed hwf)
  | drops metricName scan hop h hepoch hlabel hposition hdataSeries => exact h.wellFormed hwf

theorem step_later {c : Catalog} (hwf : c.WellFormed) (op : Op) : Later c (step c op) := by
  cases step_effect hwf op with
  | grows h => exact h.extends_.later
  | series c₁ T A id hgrows hlabel h => exact hgrows.extends_.later.trans h.later
  | labelArray metricId T A id hop h => exact h.later
  | keeps h => exact h.shrinks.later
  | marks T t ids relations hop ht h => exact (marks_shrinks ht h).later
  | deletesExpired _ _ T ranAt presentEpoch lastUpdatedEpoch now samples t hop hsamples ht h =>
    rw [h]
    exact (deleteExpired_shrinks ht _).later.trans (updateEpoch_shrinks _ _ _ _ _).later
  | drops metricName scan hop h hepoch hlabel hposition hdataSeries => exact h.later

/-- Only `drop_metric` takes positions away, and only those of the name it is given. -/
theorem step_position {c : Catalog} (hwf : c.WellFormed) {op : Op} {p : LabelKeyPosition}
    (hp : p ∈ c.labelKeyPosition.rows) (hop : ∀ scan, op ≠ .dropMetric p.metricName scan) :
    p ∈ (step c op).labelKeyPosition.rows := by
  cases step_effect hwf op with
  | grows h => exact h.extends_.position p hp
  | series c₁ T A id hgrows hlabel h =>
    rw [h.position]
    exact hgrows.extends_.position p hp
  | labelArray metricId T A id hop h =>
    rw [h.position]
    exact hp
  | keeps h =>
    rw [h.position]
    exact hp
  | marks T t ids relations hop ht h =>
    rw [h]
    exact hp
  | deletesExpired _ _ T ranAt presentEpoch lastUpdatedEpoch now samples t hop hsamples ht h =>
    rw [h, updateEpoch]
    split <;> exact hp
  | drops metricName scan hop' h hepoch hlabel hposition hdataSeries =>
    refine hposition p hp ?_
    rintro rfl
    exact hop scan hop'

/-- Only a run of `delete_expired_series` moves the epoch. -/
theorem step_sameEpoch {c : Catalog} (hwf : c.WellFormed) {op : Op}
    (hop : op.isDeleteExpiredSeries = false) : SameEpoch c (step c op) := by
  cases step_effect hwf op with
  | grows h => exact h.extends_.epoch
  | series c₁ T A id hgrows hlabel h => exact hgrows.extends_.epoch.trans h.epoch
  | labelArray metricId T A id hop h => exact h.epoch
  | keeps h => exact h.epoch
  | marks T t ids relations hop ht h =>
    rw [h]
    exact ⟨rfl, rfl, rfl⟩
  | deletesExpired _ _ T ranAt presentEpoch lastUpdatedEpoch now samples t heq hsamples ht h =>
    rw [heq] at hop
    cases hop
  | drops metricName scan hop h hepoch hlabel hposition hdataSeries => exact hepoch

/-- A mark was there, or an operation that marks has made it with the next epoch. -/
theorem step_hasMark {c : Catalog} (hwf : c.WellFormed) {op : Op}
    (hop : op.isDeleteExpiredSeries = false) {T : String} {id : Nat} {epoch : Int}
    (hmark : (step c op).HasMark T id epoch) :
    c.HasMark T id epoch ∨ op.IsMarking ∧ epoch = c.currentEpoch + 1 := by
  cases step_effect hwf op with
  | grows h => exact .inl (h.extends_.hasMark hmark)
  | series c₁ T' A id' hgrows hlabel h =>
    exact .inl (hgrows.extends_.hasMark (h.marks T id epoch hmark))
  | labelArray metricId T' A id' hop h => exact .inl (h.marks T id epoch hmark)
  | keeps h =>
    unfold HasMark at hmark
    rw [h.dataSeries] at hmark
    exact .inl hmark
  | marks T' t ids relations hmarking ht h =>
    rw [h] at hmark
    rcases markSeries_hasMark ht hmark with hold | hnew
    · exact .inl hold
    · exact .inr ⟨hmarking, hnew⟩
  | deletesExpired _ _ T' ranAt presentEpoch lastUpdatedEpoch now samples t heq hsamples ht h =>
    rw [heq] at hop
    cases hop
  | drops metricName scan hop' h hepoch hlabel hposition hdataSeries =>
    obtain ⟨t, ht, hrow⟩ := hmark
    exact .inl ⟨t, hdataSeries T t ht, hrow⟩

/-- A series row goes in a run of `delete_expired_series` or with its metric. -/
theorem step_hasSeries {c : Catalog} (hwf : c.WellFormed) {op : Op}
    (hop : op.isDeleteExpiredSeries = false) {T : String} {id : Nat} {labels : List Nat}
    (hseries : c.HasSeries T id labels) :
    (step c op).HasSeries T id labels ∨ ∃ metricName scan, op = .dropMetric metricName scan := by
  cases step_effect hwf op with
  | grows h => exact .inl (h.extends_.hasSeries hseries)
  | series c₁ T' A id' hgrows hlabel h =>
    exact .inl (h.kept T id labels (hgrows.extends_.hasSeries hseries))
  | labelArray metricId T' A id' hop h => exact .inl (h.kept T id labels hseries)
  | keeps h =>
    unfold HasSeries at hseries
    rw [← h.dataSeries] at hseries
    exact .inl hseries
  | marks T' t ids relations hop' ht h =>
    rw [h]
    exact .inl (setDeleteEpoch_hasSeries ht _ hseries)
  | deletesExpired _ _ T' ranAt presentEpoch lastUpdatedEpoch now samples t heq hsamples ht h =>
    rw [heq] at hop
    cases hop
  | drops metricName scan heq h hepoch hlabel hposition hdataSeries =>
    exact .inr ⟨metricName, scan, heq⟩

theorem run_wellFormed {c : Catalog} (hwf : c.WellFormed) (ops : List Op) :
    (ops.foldl step c).WellFormed := by
  induction ops generalizing c with
  | nil => exact hwf
  | cons op ops ih => exact ih (step_wellFormed hwf op)

theorem run_later {c : Catalog} (hwf : c.WellFormed) (ops : List Op) : Later c (ops.foldl step c) := by
  induction ops generalizing c with
  | nil => exact .refl c
  | cons op ops ih => exact (step_later hwf op).trans (ih (step_wellFormed hwf op))

theorem run_position {c : Catalog} (hwf : c.WellFormed) {ops : List Op} {p : LabelKeyPosition}
    (hp : p ∈ c.labelKeyPosition.rows)
    (hops : ∀ op ∈ ops, ∀ scan, op ≠ .dropMetric p.metricName scan) :
    p ∈ (ops.foldl step c).labelKeyPosition.rows := by
  induction ops generalizing c with
  | nil => exact hp
  | cons op ops ih =>
    exact ih (step_wellFormed hwf op) (step_position hwf hp (hops op (by simp)))
      fun op hop => hops op (by simp [hop])

/-! ## A database for concrete runs -/

/-- A new database with TimescaleDB and the default epoch duration of 12 hours. -/
def newDatabase : Catalog := init (fun a b => decide (a ≤ b)) true (12 * hour)

/-- A run of `delete_expired_series`, 13 hours after the last one, that moves the epoch on. -/
def retentionRun (metricSchema metricTable metricSeriesTable : String) (epoch : Nat) : Op :=
  .deleteExpiredSeries metricSchema metricTable metricSeriesTable (13 * (epoch + 1) * hour) epoch
    (13 * epoch * hour) (13 * (epoch + 1) * hour)

end Promscale.Catalog
