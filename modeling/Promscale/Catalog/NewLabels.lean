import Promscale.Catalog.LabelArrays

/-!
# The label rows a call creates

Rows of `label` are added one behind the other, so the rows behind those that were there are the
ones a call has created, in the order it has created them in.
-/
namespace Promscale.Catalog

open Promscale.Lib

/-! ## Functions that leave the labels alone -/

theorem getOrCreateLabelKey_label (key : String) : Frame (·.label) (getOrCreateLabelKey key) := by
  intro c
  unfold getOrCreateLabelKey
  apply Ensures.bind
  apply Ensures.get
  split
  · exact Ensures.pure rfl
  · unfold createLabelKey
    apply Ensures.bind
    apply Ensures.get
    split
    · apply Ensures.bind
      apply Ensures.set
      exact Ensures.pure rfl
    · split
      · apply Ensures.bind
        apply Ensures.set
        exact Ensures.pure rfl
      · exact Ensures.throw

theorem createOrReplaceView_label (view : String × String) (columns : List ViewColumn) :
    Frame (·.label) (createOrReplaceView view columns) := by
  intro c
  unfold createOrReplaceView
  apply Ensures.bind
  apply Ensures.get
  split
  · exact Ensures.throw
  · split
    · exact Ensures.throw
    · split
      · split
        · exact Ensures.throw
        · exact Ensures.set rfl
      · split
        · exact Ensures.throw
        · split
          · exact Ensures.throw
          · exact Ensures.set rfl

theorem positionedColumns_label (metricName : String) (id : Bool) :
    Frame (·.label) (positionedColumns metricName id) := by
  intro c
  unfold positionedColumns
  apply Ensures.bind
  apply Ensures.get
  refine Frame.bind (Frame.mapM ?_ _) (fun _ => Frame.pure _) c
  intro p
  unfold getLabelKeyColumnNameForView
  exact ((getOrCreateLabelKey_label _).bind fun _ => Frame.pure _).bind fun _ => Frame.pure _

theorem createViewsFor_label (metricName : String) (isForExemplar : Bool) (countNew : Nat) :
    Frame (·.label) (createViewsFor metricName isForExemplar countNew) := by
  have hmetric := fun c => findMetricStrict_same c metricName
  unfold createViewsFor
  split
  · refine Frame.bind ?_ fun _ => ?_
    · unfold createSeriesView
      exact (positionedColumns_label _ _).bind fun _ => (Frame.of_same hmetric).bind fun m =>
        (Frame.of_same fun c => requireDataSeries_same c m.tableName).bind fun _ =>
          createOrReplaceView_label _ _
    · unfold createMetricView
      exact (positionedColumns_label _ _).bind fun _ => (Frame.of_same hmetric).bind fun m =>
        (Frame.of_same fun c => requireRelation_same c (promData, m.tableName)).bind fun _ =>
          (Frame.of_same fun c => requireDataSeries_same c m.tableName).bind fun _ =>
            createOrReplaceView_label _ _
  · exact Frame.pure _

theorem insertPosition_label (isForExemplar : Bool) (row : LabelKeyPosition) :
    Frame (·.label) (insertPosition isForExemplar row) := by
  intro c
  unfold insertPosition
  apply Ensures.bind
  apply Ensures.get
  split <;> split
  · apply Ensures.bind
    apply Ensures.set
    exact Ensures.pure rfl
  · exact Ensures.throw
  · apply Ensures.bind
    apply Ensures.set
    exact Ensures.pure rfl
  · exact Ensures.throw

theorem newPosition_label (metricName keyName : String) (isForExemplar : Bool) (maxPosition : Nat) :
    Frame (·.label) (newPosition metricName keyName isForExemplar maxPosition) := by
  unfold newPosition
  split
  · exact insertPosition_label _ _
  · exact (getOrCreateLabelKey_label _).bind fun _ => insertPosition_label _ _

theorem positionLoop_label (metricName : String) (isForExemplar : Bool) (keys : List String)
    (maxPosition : Nat) : Frame (·.label) (positionLoop metricName isForExemplar keys maxPosition) := by
  induction keys generalizing maxPosition with
  | nil => exact Frame.pure _
  | cons keyName rest ih =>
    intro c
    unfold positionLoop
    apply Ensures.bind
    apply Ensures.get
    split
    · exact ((ih _).bind fun _ => Frame.pure _) c
    · exact ((newPosition_label _ _ _ _).bind fun _ => (ih _).bind fun _ => Frame.pure _) c

theorem getNewPosForKey_label (metricName metricTable : String) (keyNameArray : List String)
    (isForExemplar : Bool) :
    Frame (·.label) (getNewPosForKey metricName metricTable keyNameArray isForExemplar) := by
  intro c
  unfold getNewPosForKey
  apply Ensures.bind
  apply Ensures.get
  dsimp only
  split
  · exact Ensures.pure rfl
  · exact ((Frame.of_same fun c => lockForPositions_same c metricTable isForExemplar).bind fun _ =>
      (positionLoop_label _ _ _ _).bind fun _ => (createViewsFor_label _ _ _).bind fun _ =>
        Frame.pure _) c

theorem createTable_label (relation : String × String) :
    Frame (·.label) (createTable relation) := by
  intro c
  unfold createTable duplicateTable
  apply Ensures.bind
  apply Ensures.get
  split
  · exact Ensures.throw
  · exact Ensures.set rfl

theorem createSeriesTable_label (tableName : String) (labelId metricId : Nat) :
    Frame (·.label) (createSeriesTable tableName labelId metricId) := by
  intro c
  unfold createSeriesTable duplicateTable
  apply Ensures.bind
  apply Ensures.get
  split
  · exact Ensures.throw
  · exact Ensures.set rfl

/-! ## Functions that create labels -/

/-- The rows of `label` behind those of an earlier state, as keys and values. -/
def newLabels (c c' : Catalog) : List (String × String) :=
  (c'.label.rows.drop c.label.rows.length).map fun l => (l.key, l.value)

/-- The labels have been added to the table, in this order. -/
def LabelsAdded (c c' : Catalog) (new : List (String × String)) : Prop :=
  ∃ rows, c'.label.rows = c.label.rows ++ rows ∧ rows.map (fun l => (l.key, l.value)) = new

namespace LabelsAdded

variable {c c' c'' : Catalog} {new new' : List (String × String)}

theorem of_label (h : c'.label = c.label) : LabelsAdded c c' [] :=
  ⟨[], by rw [h, List.append_nil], rfl⟩

theorem trans (h : LabelsAdded c c' new) (h' : LabelsAdded c' c'' new') :
    LabelsAdded c c'' (new ++ new') := by
  obtain ⟨rows, hrows, rfl⟩ := h
  obtain ⟨rows', hrows', rfl⟩ := h'
  exact ⟨rows ++ rows', by rw [hrows', hrows, List.append_assoc], List.map_append⟩

theorem newLabels_eq (h : LabelsAdded c c' new) : newLabels c c' = new := by
  obtain ⟨rows, hrows, rfl⟩ := h
  rw [newLabels, hrows, List.drop_left]

end LabelsAdded

theorem findLabel_eq_none_iff (c : Catalog) (key value : String) :
    c.findLabel key value = none ↔ ∀ l ∈ c.label.rows, (l.key, l.value) ≠ (key, value) := by
  simp [findLabel]

/-- A label is not found exactly when it was not there and has not been added. -/
theorem LabelsAdded.findLabel_eq_none_iff {c c' : Catalog} {new : List (String × String)}
    (h : LabelsAdded c c' new) (e : String × String) :
    c'.findLabel e.1 e.2 = none ↔ c.findLabel e.1 e.2 = none ∧ e ∉ new := by
  obtain ⟨rows, hrows, rfl⟩ := h
  rw [Catalog.findLabel_eq_none_iff, Catalog.findLabel_eq_none_iff, hrows, List.forall_mem_append]
  apply and_congr_right
  intro _
  constructor
  · intro hnone hmem
    obtain ⟨l, hl, heq⟩ := List.mem_map.mp hmem
    exact hnone l hl heq
  · intro hnot l hl heq
    exact hnot (List.mem_map.mpr ⟨l, hl, heq⟩)

theorem getNewLabelIdLoop_adds (keyName valueName : String) (fuel : Nat) (c : Catalog)
    (hnone : c.findLabel keyName valueName = none) :
    Ensures (getNewLabelIdLoop keyName valueName fuel) c fun _ c' =>
      LabelsAdded c c' [(keyName, valueName)] := by
  induction fuel generalizing c with
  | zero => exact Ensures.throw
  | succ fuel ih =>
    unfold getNewLabelIdLoop insertLabel
    apply Ensures.bind
    apply Ensures.bind
    apply Ensures.get
    split
    · rename_i label hinsert
      apply Ensures.bind
      apply Ensures.set
      apply Ensures.pure
      apply Ensures.pure
      exact ⟨[⟨_, keyName, valueName⟩], ((Table.insert_eq_some_iff _ _ _ _).mp hinsert).2, rfl⟩
    · apply Ensures.bind
      apply Ensures.set
      apply Ensures.pure
      apply Ensures.bind
      apply Ensures.get
      split
      · rename_i l hfind
        change c.findLabel keyName valueName = some l at hfind
        rw [hnone] at hfind
        cases hfind
      · exact (ih { c with labelIdSeq := c.labelIdSeq + 1 } hnone).mono fun _ _ h => h

/-- The label, if it is not there yet. -/
def missingLabel (c : Catalog) (e : String × String) : List (String × String) :=
  if (c.findLabel e.1 e.2).isNone then [e] else []

theorem getOrCreateLabelId_adds (c : Catalog) (keyName valueName : String) :
    Ensures (getOrCreateLabelId keyName valueName) c fun _ c' =>
      LabelsAdded c c' (c.missingLabel (keyName, valueName)) := by
  unfold getOrCreateLabelId missingLabel
  apply Ensures.bind
  apply Ensures.get
  split
  · rename_i l hfind
    apply Ensures.pure
    rw [hfind]
    exact .of_label rfl
  · rename_i hnone
    rw [hnone]
    unfold getNewLabelId
    apply Ensures.bind
    apply Ensures.get
    exact getNewLabelIdLoop_adds keyName valueName _ c hnone

/-- Whether a label is that of the name of a metric that is not there yet: the trigger that makes
the tables of the metric makes the label with them. -/
def madeWithMetric (c : Catalog) (metricName : Option String) (e : String × String) : Bool :=
  metricName.any fun metricName => (c.findMetric metricName).isNone && e = (nameKey, metricName)

/-- What has been added, if anything, is made with the metric. -/
def AddedWithMetric (metricName : String) (c c' : Catalog) : Prop :=
  ∃ new, LabelsAdded c c' new ∧ ∀ e ∈ new, c.madeWithMetric (some metricName) e = true

theorem AddedWithMetric.of_label {c c' : Catalog} {metricName : String} (h : c'.label = c.label) :
    AddedWithMetric metricName c c' :=
  ⟨[], .of_label h, by simp⟩

theorem getOrCreateMetricTableName_labels (c : Catalog) (metricName : String) :
    Ensures (getOrCreateMetricTableName metricName) c fun _ c' =>
      AddedWithMetric metricName c c' := by
  unfold getOrCreateMetricTableName
  apply Ensures.bind
  apply Ensures.get
  split
  · exact Ensures.pure (.of_label rfl)
  · rename_i hmetric
    unfold createMetricTable
    apply Ensures.bind
    apply Ensures.get
    split
    · apply Ensures.bind
      apply Ensures.set
      apply Ensures.bind
      unfold makeMetricTable
      rw [if_neg (by simp [newRawMetric])]
      apply Ensures.bind
      refine (createTable_label _ _).mono ?_
      intro _ c₁ hlabel₁
      apply Ensures.bind
      refine (getOrCreateLabelId_adds c₁ _ _).mono ?_
      intro labelId c₂ hadded
      refine (createSeriesTable_label _ _ _ _).mono ?_
      intro _ c₃ hlabel₃
      apply Ensures.pure
      refine ⟨_, ((LabelsAdded.of_label hlabel₁).trans hadded).trans (.of_label hlabel₃), ?_⟩
      intro e he
      have hname : e = (nameKey, metricName) := by
        simp only [List.nil_append, List.append_nil, missingLabel] at he
        split at he
        · exact List.mem_singleton.mp he
        · cases he
      simp [madeWithMetric, hmetric, hname]
    · split
      · apply Ensures.bind
        apply Ensures.set
        exact Ensures.pure (.of_label rfl)
      · exact Ensures.throw

theorem getOrCreateLabelKeyPos_adds (c : Catalog) (metricName key : String) :
    Ensures (getOrCreateLabelKeyPos metricName key) c fun _ c' =>
      AddedWithMetric metricName c c' := by
  unfold getOrCreateLabelKeyPos
  apply Ensures.bind
  apply Ensures.get
  split
  · exact Ensures.pure (.of_label rfl)
  · apply Ensures.bind
    refine (getOrCreateMetricTableName_labels c metricName).mono ?_
    rintro m c₁ ⟨new, hadded, hnew⟩
    apply Ensures.bind
    refine (getNewPosForKey_label _ _ _ _ c₁).mono ?_
    intro positions c₂ hlabel
    apply Ensures.pure
    have hboth := hadded.trans (.of_label hlabel)
    rw [List.append_nil] at hboth
    exact ⟨new, hboth, hnew⟩

/-! ## The rows of a label set -/

theorem labelIdx_adds (snapshot c : Catalog) (metricName key : String) :
    Ensures (labelIdx snapshot (some metricName) key) c fun _ c' =>
      AddedWithMetric metricName c c' := by
  unfold labelIdx
  dsimp only
  split
  · exact Ensures.pure (.of_label rfl)
  · exact getOrCreateLabelKeyPos_adds c metricName key

theorem labelVal_adds (snapshot c : Catalog) (e : String × String) :
    Ensures (labelVal snapshot e.1 e.2) c fun _ c' =>
      LabelsAdded c c' (if (snapshot.findLabel e.1 e.2).isNone then c.missingLabel e else []) := by
  unfold labelVal
  split
  · rename_i l hfind
    rw [hfind]
    exact Ensures.pure (.of_label rfl)
  · rename_i hnone
    rw [hnone]
    exact getOrCreateLabelId_adds c e.1 e.2

/-- A metric that is missing has been missing before. -/
theorem madeWithMetric_of_grows {c c' : Catalog} (h : Grows c c') {metricName : Option String}
    {e : String × String} (hmade : c'.madeWithMetric metricName e = true) :
    c.madeWithMetric metricName e = true := by
  cases metricName with
  | none => exact hmade
  | some metricName =>
    obtain ⟨hmissing, hname⟩ := Bool.and_eq_true_iff.mp hmade
    refine Bool.and_eq_true_iff.mpr ⟨?_, hname⟩
    rw [Option.isNone_iff_eq_none, findMetric, List.find?_eq_none] at hmissing ⊢
    exact fun m hm => hmissing m (h.extends_.metric m hm)

/-- The labels of a call that its own query creates: those that are not there yet, but for one that
is made with the metric. -/
def isCreated (c : Catalog) (metricName : Option String) (e : String × String) : Bool :=
  (c.findLabel e.1 e.2).isNone && !c.madeWithMetric metricName e

/-- The rows of a query create the labels in their order. -/
theorem idxVals_adds (c : Catalog) (metricName : String) {es : List (String × String)}
    (hnodup : es.Nodup) :
    Ensures (es.mapM (idxVal c (some metricName))) c fun _ c' => ∃ new, LabelsAdded c c' new ∧
      new.filter (fun e => !c.madeWithMetric (some metricName) e) =
        es.filter (c.isCreated (some metricName)) := by
  refine (Ensures.mapM (fun done _ t => Grows c t ∧ ∃ new, LabelsAdded c t new ∧
    new.filter (fun e => !c.madeWithMetric (some metricName) e) =
      done.filter (c.isCreated (some metricName))) ?_
    ⟨.refl c, [], .of_label rfl, rfl⟩).mono fun _ _ h => h.2
  rintro done e rest _ t hes ⟨hgrows, new, hadded, hnew⟩
  unfold idxVal
  apply Ensures.bind
  refine ((labelIdx_grows hgrows metricName e.1).and (labelIdx_adds c t metricName e.1)).mono ?_
  rintro _ t₁ ⟨⟨hgrows₁, -⟩, made, hmade, hwith⟩
  apply Ensures.bind
  refine ((labelVal_grows (hgrows.trans hgrows₁) e.1 e.2).and (labelVal_adds c t₁ e)).mono ?_
  rintro _ t₂ ⟨⟨hgrows₂, -⟩, hval⟩
  apply Ensures.pure
  refine ⟨(hgrows.trans hgrows₁).trans hgrows₂, _, (hadded.trans hmade).trans hval, ?_⟩
  have hmade' : made.filter (fun e => !c.madeWithMetric (some metricName) e) = [] := by
    rw [List.filter_eq_nil_iff]
    intro e he
    simp [madeWithMetric_of_grows hgrows (hwith e he)]
  rw [List.filter_append, List.filter_append, hnew, hmade', List.append_nil, List.filter_append]
  congr 1
  by_cases hcreated : c.isCreated (some metricName) e = true
  · -- neither an earlier row nor the metric has brought the label
    obtain ⟨hmissing, hkept⟩ := Bool.and_eq_true_iff.mp hcreated
    have hnone : t₁.findLabel e.1 e.2 = none := by
      rw [(hadded.trans hmade).findLabel_eq_none_iff, List.mem_append]
      refine ⟨Option.isNone_iff_eq_none.mp hmissing, ?_⟩
      rintro (hmem | hmem)
      · have hdone : e ∈ done.filter (c.isCreated (some metricName)) := by
          rw [← hnew]
          exact List.mem_filter.mpr ⟨hmem, hkept⟩
        rw [hes] at hnodup
        exact List.disjoint_of_nodup_append hnodup (List.mem_filter.mp hdone).1
          List.mem_cons_self
      · rw [madeWithMetric_of_grows hgrows (hwith e hmem)] at hkept
        cases hkept
    simp [hmissing, missingLabel, hnone, hcreated, hkept]
  · rw [Bool.not_eq_true] at hcreated
    have hgone : ∀ l : List (String × String), (∀ x ∈ l, x = e) → (c.findLabel e.1 e.2).isNone →
        l.filter (fun e => !c.madeWithMetric (some metricName) e) = [] := by
      intro l hl hmissing
      rw [List.filter_eq_nil_iff]
      intro x hx
      rw [hl x hx]
      simpa [isCreated, hmissing] using hcreated
    rw [List.filter_singleton, hcreated]
    split
    · rename_i hmissing
      refine hgone _ ?_ hmissing
      unfold missingLabel
      split <;> simp
    · rfl

end Promscale.Catalog
