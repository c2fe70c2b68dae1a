import Promscale.Catalog.Operations

/-!
# Label sets, arrays and series ids

Whatever calls have been made before, the array of a label set can be told from the
catalog it was made in, and as long as the metric is not dropped and the labels are not
deleted it stays the array of that label set. A series id stands for one label set for
ever; a label set keeps its id as long as it keeps its array and its series.
-/
namespace Promscale.Catalog

open Promscale.Lib

/-- A finite map from keys to values that names a metric; the order of its labels is no part of
it. -/
structure LabelSet where
  labels : List (String × String)
  keys_nodup : (labels.map (·.1)).Nodup
  metricName : String
  named : (nameKey, metricName) ∈ labels

/-- A call of one of the variants of `get_or_create_label_array`. -/
inductive ArrayCall where
  | jsonb (js : List (String × String))
  | kv (metricName : String) (kvs : List (String × String))

def ArrayCall.run : ArrayCall → Sql (List Nat)
  | jsonb js => getOrCreateLabelArray js
  | kv metricName kvs => getOrCreateLabelArrayKv metricName kvs

/-- The call is given the label set. -/
def ArrayCall.IsFor (L : LabelSet) : ArrayCall → Prop
  | jsonb js => js.Perm L.labels
  | kv metricName kvs => metricName = L.metricName ∧ kvs.Perm L.labels

/-- A call of one of the `get_or_create_series_id` functions. -/
inductive SeriesCall where
  | jsonb (label : List (String × String))
  | kvArray (metricName : String) (kvs : List (String × String))
  | labelArray (metricId : Nat) (tableName : String) (larray : List Nat)

def SeriesCall.run : SeriesCall → Sql Nat
  | jsonb label => getOrCreateSeriesId label
  | kvArray metricName kvs => do
    let found ← getOrCreateSeriesIdForKvArray metricName kvs
    pure found.2
  | labelArray metricId tableName larray =>
    getOrCreateSeriesIdForLabelArray metricId tableName larray

/-- The call is given the label set, or its array in the catalog. -/
def SeriesCall.IsFor (c : Catalog) (L : LabelSet) : SeriesCall → Prop
  | jsonb label => label.Perm L.labels
  | kvArray metricName kvs => metricName = L.metricName ∧ kvs.Perm L.labels
  | labelArray _ _ larray => c.Encodes L.metricName L.labels larray

/-- The labels of the set that are in `c` are in `c'`, under the same ids. -/
def LabelsSurvive (c c' : Catalog) (L : LabelSet) : Prop :=
  ∀ k v id, (k, v) ∈ L.labels → c.HasLabel id k v → c'.HasLabel id k v

/-- The series under the id is not marked for deletion. -/
def IsLive (c : Catalog) (id : Nat) : Prop :=
  ∃ T t, c.dataSeries T = some t ∧ ∃ s ∈ t.series.rows, s.id = id ∧ s.deleteEpoch = none

/-! ## Arrays -/

theorem perm_keys_nodup {L : LabelSet} {es : List (String × String)} (h : es.Perm L.labels) :
    (es.map (·.1)).Nodup :=
  (h.map _).nodup_iff.mpr L.keys_nodup

theorem LabelSet.lookup_iff (L : LabelSet) (k v : String) :
    L.labels.lookup k = some v ↔ (k, v) ∈ L.labels := by
  constructor
  · intro hlookup
    obtain ⟨before, after, heq, -⟩ := List.lookup_eq_some_iff.mp hlookup
    rw [heq]
    exact List.mem_append_right _ List.mem_cons_self
  · exact lookup_of_mem L.keys_nodup

theorem perm_lookup {L : LabelSet} {es : List (String × String)} (h : es.Perm L.labels) :
    es.lookup nameKey = some L.metricName :=
  lookup_of_mem (perm_keys_nodup h) (h.mem_iff.mpr L.named)

theorem ReturnsArray.encodes_of_perm {c c' : Catalog} {L : LabelSet} {es : List (String × String)}
    {A : List Nat} (hperm : es.Perm L.labels) (h : ReturnsArray c L.metricName es A c')
    (hwf : c.WellFormed) : c'.Encodes L.metricName L.labels A :=
  (h.encodes hwf (perm_keys_nodup hperm)).perm hperm

theorem ArrayCall.run_returns {L : LabelSet} {call : ArrayCall} (hcall : call.IsFor L) {c : Catalog}
    (hwf : c.WellFormed) : Ensures call.run c fun A c' =>
      Grows c c' ∧ c'.Encodes L.metricName L.labels A := by
  cases call with
  | jsonb js =>
    refine (getOrCreateLabelArray_returns c (perm_lookup hcall)).mono ?_
    exact fun A c' h => ⟨h.grows, h.encodes_of_perm hcall hwf⟩
  | kv metricName kvs =>
    obtain ⟨rfl, hperm⟩ := hcall
    refine (getOrCreateLabelArrayKv_returns c L.metricName kvs).mono ?_
    exact fun A c' h => ⟨h.grows, h.encodes_of_perm hperm hwf⟩

theorem ArrayCall.run_finds {L : LabelSet} {call : ArrayCall} (hcall : call.IsFor L) {c : Catalog}
    (hwf : c.WellFormed) {A : List Nat} (h : c.Encodes L.metricName L.labels A) :
    call.run.run c = .ok (A, c) := by
  cases call with
  | jsonb js =>
    exact getOrCreateLabelArray_finds hwf (perm_keys_nodup hcall) (hcall.mem_iff.mpr L.named)
      (h.perm hcall.symm)
  | kv metricName kvs =>
    obtain ⟨rfl, hperm⟩ := hcall
    exact getOrCreateLabelArrayKv_finds hwf (perm_keys_nodup hperm) (h.perm hperm.symm)

/-- A run that does not drop the metric and leaves the labels there leaves the array. -/
theorem run_encodes {c : Catalog} (hwf : c.WellFormed) {L : LabelSet} {A : List Nat}
    (h : c.Encodes L.metricName L.labels A) {ops : List Op}
    (hops : ∀ op ∈ ops, ∀ scan, op ≠ .dropMetric L.metricName scan)
    (hlabels : LabelsSurvive c (ops.foldl step c) L) :
    (ops.foldl step c).Encodes L.metricName L.labels A :=
  h.mono (fun _ _ hpos => run_position hwf hpos hops) hlabels

/-! ## Series -/

/-- What a series-creating call has done when it returns. -/
structure SeriesCall.Returned (c : Catalog) (L : LabelSet) (id : Nat) (c' : Catalog) : Prop where
  row : ∃ T A t, c'.Encodes L.metricName L.labels A ∧ c'.dataSeries T = some t ∧
    ∃ s ∈ t.series.rows, s.id = id ∧ s.labels = A ∧ s.deleteEpoch = none
  wellFormed : c'.WellFormed
  later : Later c c'
  label : ∀ l ∈ c.label.rows, l ∈ c'.label.rows
  position : ∀ p ∈ c.labelKeyPosition.rows, p ∈ c'.labelKeyPosition.rows
  kept : ∀ T id labels, c.HasSeries T id labels → c'.HasSeries T id labels

theorem SeriesCall.Returned.of_array {c c₁ c' : Catalog} {L : LabelSet} {T : String} {A : List Nat}
    {id : Nat} (hwf : c.WellFormed) (hgrows : Grows c c₁)
    (hencodes : c₁.Encodes L.metricName L.labels A) (h : ReturnsSeries c₁ T A id c') :
    SeriesCall.Returned c L id c' where
  row := by
    obtain ⟨t, ht, s, hs, hid, hlabels, hlive⟩ := h.row
    refine ⟨T, A, t, hencodes.mono (fun k pos hpos => ?_) (fun k v id _ hl => ?_), ht, s, hs, hid,
      hlabels, hlive⟩
    · unfold HasPosition
      rwa [h.position]
    · unfold HasLabel
      rwa [h.label]
  wellFormed := h.wellFormed (hgrows.wellFormed hwf)
  later := hgrows.extends_.later.trans h.later
  label l hl := by
    rw [h.label]
    exact hgrows.extends_.label l hl
  position p hp := by
    rw [h.position]
    exact hgrows.extends_.position p hp
  kept T' id' labels hhas := by
    exact h.kept T' id' labels (hgrows.extends_.hasSeries hhas)

theorem SeriesCall.run_returned {c : Catalog} (hwf : c.WellFormed) {L : LabelSet} {call : SeriesCall}
    (hcall : call.IsFor c L) : Ensures call.run c (SeriesCall.Returned c L) := by
  cases call with
  | jsonb label =>
    refine (getOrCreateSeriesId_returns c (perm_lookup hcall)).mono ?_
    rintro id c' ⟨A, T, c₁, harray, hseries⟩
    exact .of_array hwf harray.grows (harray.encodes_of_perm hcall hwf) hseries
  | kvArray metricName kvs =>
    obtain ⟨rfl, hperm⟩ := hcall
    apply Ensures.bind
    refine (getOrCreateSeriesIdForKvArray_returns c L.metricName kvs).mono ?_
    rintro found c' ⟨A, c₁, harray, hseries⟩
    apply Ensures.pure
    exact .of_array hwf harray.grows (harray.encodes_of_perm hperm hwf) hseries
  | labelArray metricId tableName larray =>
    refine (getOrCreateSeriesIdForLabelArray_returns c metricId tableName larray).mono ?_
    exact fun id c' hseries => .of_array hwf (.refl c) hcall hseries

/-- A series id has one array. -/
theorem hasSeries_labels {c : Catalog} (hwf : c.WellFormed) {T T' : String} {id : Nat}
    {labels labels' : List Nat} (h : c.HasSeries T id labels) (h' : c.HasSeries T' id labels') :
    labels = labels' := by
  obtain ⟨t, ht, s, hs, rfl, rfl⟩ := h
  obtain ⟨t', ht', s', hs', hid, rfl⟩ := h'
  cases hwf.seriesDisjoint T t T' t' ht ht' s hs s' hs' hid.symm
  rw [ht, Option.some_inj] at ht'
  subst ht'
  rw [t.series.eq_of_conflict hs hs' (by simp [Series.constraints, hid])]

/-- An array has one series id: its first label tells the metric, and the metric the table. -/
theorem hasSeries_id {c : Catalog} (hwf : c.WellFormed) {T T' : String} {id id' : Nat}
    {labels : List Nat} (h : c.HasSeries T id labels) (h' : c.HasSeries T' id' labels) : id = id' := by
  obtain ⟨t, ht, s, hs, rfl, rfl⟩ := h
  obtain ⟨t', ht', s', hs', rfl, hlabels⟩ := h'
  have hname := t.series.checked s hs
  have hname' := t'.series.checked s' hs'
  simp only [Series.constraints, Bool.and_eq_true, decide_eq_true_eq] at hname hname'
  obtain ⟨m, hm, hschema, htable, -, hlabel⟩ := hwf.seriesTable T t ht
  obtain ⟨m', hm', hschema', htable', -, hlabel'⟩ := hwf.seriesTable T' t' ht'
  have hid : t.nameLabelId = t'.nameLabelId := by
    have := hname.1.symm.trans (hlabels ▸ hname'.1)
    exact Option.some_inj.mp this
  rw [hid] at hlabel
  have hmetric := (hasLabel_inj hlabel hlabel').2
  have hsame : m = m' := c.metric.eq_of_conflict hm hm' (by
    simp [Metric.constraints, hmetric, hschema, hschema'])
  have hT : T = T' := by rw [← htable, ← htable', hsame]
  subst hT
  rw [ht, Option.some_inj] at ht'
  subst ht'
  rw [t.series.eq_of_conflict hs hs' (by simp [Series.constraints, hlabels])]

/-- What an id stood for once, it stands for later. -/
theorem later_hasSeries {c c' : Catalog} (hwf : c.WellFormed) (hlater : Later c c') {T T' : String}
    {id : Nat} {labels labels' : List Nat} (h : c.HasSeries T id labels)
    (h' : c'.HasSeries T' id labels') : labels = labels' := by
  obtain ⟨t', ht', s', hs', rfl, rfl⟩ := h'
  have hle : s'.id ≤ c.seriesIdSeq := by
    obtain ⟨t, ht, s, hs, hid, -⟩ := h
    rw [← hid]
    exact hwf.seriesId T t ht s hs
  obtain ⟨t, ht, s, hs, hid, hlabels⟩ := hlater.series T' t' ht' s' hs' hle
  exact hasSeries_labels hwf h ⟨t, ht, s, hs, hid, hlabels⟩

theorem later_hasLabel {c c' : Catalog} (hwf : c.WellFormed) (hlater : Later c c') {id : Nat}
    {k v k' v' : String} (h : c.HasLabel id k v) (h' : c'.HasLabel id k' v') : k = k' ∧ v = v' := by
  have hle : id ≤ c.labelIdSeq := hwf.labelId _ h
  exact hasLabel_inj h (hlater.label _ h' hle)

/-- One array at two times stands for one label set. -/
theorem later_encodes {c c' : Catalog} (hwf : c.WellFormed) (hlater : Later c c') {L L' : LabelSet}
    {A : List Nat} (h : c.Encodes L.metricName L.labels A)
    (h' : c'.Encodes L'.metricName L'.labels A) : L.labels.Perm L'.labels := by
  refine (List.perm_ext_iff_of_nodup (.of_map _ L.keys_nodup) (.of_map _ L'.keys_nodup)).mpr ?_
  rintro ⟨k, v⟩
  constructor
  · intro he
    obtain ⟨pos, id, -, -, hlabel, hget⟩ := h.at_position k v he
    obtain ⟨k', v', he', hlabel'⟩ := h'.label_of_mem (List.mem_of_getElem? hget)
      (Nat.ne_of_gt (hasLabel_pos hlabel))
    obtain ⟨rfl, rfl⟩ := later_hasLabel hwf hlater hlabel hlabel'
    exact he'
  · intro he'
    obtain ⟨pos, id, -, -, hlabel', hget⟩ := h'.at_position k v he'
    obtain ⟨k', v', he, hlabel⟩ := h.label_of_mem (List.mem_of_getElem? hget)
      (Nat.ne_of_gt (hasLabel_pos hlabel'))
    obtain ⟨rfl, rfl⟩ := later_hasLabel hwf hlater hlabel hlabel'
    exact he

theorem SeriesCall.Returned.hasSeries {c c' : Catalog} {L : LabelSet} {id : Nat}
    (h : SeriesCall.Returned c L id c') :
    ∃ T A, c'.Encodes L.metricName L.labels A ∧ c'.HasSeries T id A := by
  obtain ⟨T, A, t, hencodes, ht, s, hs, hid, hlabels, -⟩ := h.row
  exact ⟨T, A, hencodes, t, ht, s, hs, hid, hlabels⟩

theorem SeriesCall.Returned.isLive {c c' : Catalog} {L : LabelSet} {id : Nat}
    (h : SeriesCall.Returned c L id c') : c'.IsLive id := by
  obtain ⟨T, A, t, -, ht, s, hs, hid, -, hlive⟩ := h.row
  exact ⟨T, t, ht, s, hs, hid, hlive⟩

/-- Calls that return one id were given one label set, whenever they were made. -/
theorem labels_of_same_id {c c' d d' : Catalog} {L L' : LabelSet} {id : Nat}
    (h : SeriesCall.Returned c L id c') (h' : SeriesCall.Returned d L' id d') (hlater : Later c' d) :
    L.labels.Perm L'.labels := by
  obtain ⟨T, A, hencodes, hseries⟩ := h.hasSeries
  obtain ⟨T', A', hencodes', hseries'⟩ := h'.hasSeries
  have hlater' := hlater.trans h'.later
  cases later_hasSeries h.wellFormed hlater' hseries hseries'
  exact later_encodes h.wellFormed hlater' hencodes hencodes'

/-- Calls that are given one label set return one id, while its array and its series stay. -/
theorem same_id_of_labels {c c' d d' : Catalog} {L L' : LabelSet} {id id' : Nat}
    (h : SeriesCall.Returned c L id c') (h' : SeriesCall.Returned d L' id' d') (hlater : Later c' d)
    (hlabels : L.labels.Perm L'.labels)
    (harray : ∀ A, c'.Encodes L.metricName L.labels A → d.Encodes L.metricName L.labels A)
    (hstays : ∃ T labels, d.HasSeries T id labels) : id = id' := by
  obtain ⟨T, A, hencodes, hseries⟩ := h.hasSeries
  obtain ⟨T', A', hencodes', hseries'⟩ := h'.hasSeries
  have hname : L.metricName = L'.metricName := by
    have hlookup := perm_lookup hlabels
    rw [lookup_of_mem L.keys_nodup L.named] at hlookup
    exact Option.some_inj.mp hlookup
  have hencodes'' : d'.Encodes L'.metricName L'.labels A := by
    rw [← hname]
    exact ((harray A hencodes).mono (fun _ _ hpos => h'.position _ hpos)
      fun _ _ _ _ hl => h'.label _ hl).perm hlabels
  cases hencodes''.unique hencodes'
  obtain ⟨T₁, labels₁, hstays⟩ := hstays
  cases later_hasSeries h.wellFormed hlater hseries hstays
  exact hasSeries_id h'.wellFormed (h'.kept T₁ id A hstays) hseries'

/-- In every reachable catalog and for every label set, a call for its array returns the array
the catalog then determines, which gives the label set back; until the metric is dropped or one
of the labels deleted, both variants return the same array again and change nothing. A call for
its series returns a live series; a later call returns the same id only for the same label set,
and for the same label set it returns the same id while the array and the series stay. -/
theorem labelSets_arrays_series_agree (collate : String → String → Bool)
    (timescaledbInstalled : Bool) (epochDuration : Int) (ops : List Op) :
    let c := ops.foldl step (init collate timescaledbInstalled epochDuration)
    (∀ (L : LabelSet) (call : ArrayCall) (A : List Nat) (c' : Catalog), call.IsFor L →
      call.run.run c = .ok (A, c') →
        c'.Encodes L.metricName L.labels A ∧
        (∃ members, c'.jsonb A = some members ∧ members.Perm L.labels) ∧
        ∀ more : List Op, (∀ op ∈ more, ∀ scan, op ≠ .dropMetric L.metricName scan) →
          LabelsSurvive c' (more.foldl step c') L → ∀ call' : ArrayCall, call'.IsFor L →
            call'.run.run (more.foldl step c') = .ok (A, more.foldl step c')) ∧
    (∀ (L : LabelSet) (call : SeriesCall) (id : Nat) (c' : Catalog), call.IsFor c L →
      call.run.run c = .ok (id, c') →
        c'.IsLive id ∧
        ∀ (more : List Op) (L' : LabelSet) (call' : SeriesCall) (id' : Nat) (c'' : Catalog),
          call'.IsFor (more.foldl step c') L' →
          call'.run.run (more.foldl step c') = .ok (id', c'') →
            c''.IsLive id' ∧
            (id = id' → L.labels.Perm L'.labels) ∧
            ((∀ op ∈ more, ∀ scan, op ≠ .dropMetric L.metricName scan) →
              LabelsSurvive c' (more.foldl step c') L →
              (∃ T labels, (more.foldl step c').HasSeries T id labels) →
              L.labels.Perm L'.labels → id = id')) := by
  intro c
  have hwf : c.WellFormed := run_wellFormed (init_wellFormed _ _ _) ops
  constructor
  · intro L call A c' hcall hrun
    obtain ⟨hgrows, hencodes⟩ := call.run_returns hcall hwf A c' hrun
    have hwf' := hgrows.wellFormed hwf
    have hne : L.labels ≠ [] := List.ne_nil_of_mem L.named
    refine ⟨hencodes, hencodes.jsonb_eq L.keys_nodup hne, fun more hmore hlabels call' hcall' => ?_⟩
    exact call'.run_finds hcall' (run_wellFormed hwf' more) (run_encodes hwf' hencodes hmore hlabels)
  · intro L call id c' hcall hrun
    have h := call.run_returned hwf hcall id c' hrun
    refine ⟨h.isLive, ?_⟩
    · intro more L' call' id' c'' hcall' hrun'
      have h' := call'.run_returned (run_wellFormed h.wellFormed more) hcall' id' c'' hrun'
      have hlater := run_later h.wellFormed more
      refine ⟨h'.isLive, ?_, ?_⟩
      · rintro rfl
        exact labels_of_same_id h h' hlater
      · intro hmore hsurvive hstays hlabels
        exact same_id_of_labels h h' hlater hlabels
          (fun A hencodes => run_encodes h.wellFormed hencodes hmore hsurvive) hstays

/-! ## Where the metric or the series goes -/

def cpuLabels : List (String × String) := [("__name__", "cpu"), ("a", "1"), ("b", "2")]

/-- The array of the labels is made, the metric dropped, and its next positions given out in
another order. -/
def droppedBetween : List Op :=
  [.getOrCreateLabelArray cpuLabels, .dropMetric "cpu" 0,
    .getOrCreateLabelArray [("__name__", "cpu"), ("b", "2")]]

/-- The series of the labels is made and deleted, and it is made again. -/
def deletedBetween : List Op :=
  [.getOrCreateSeriesId cpuLabels, .deleteSeriesFromMetric "cpu" [1]] ++
    (List.range 6).map (retentionRun "prom_data" "cpu" "cpu")

/-- The array of one label set differs although its labels were never deleted, and two series
calls for one label set return different ids. -/
theorem dropMetric_changes_array :
    (((getOrCreateLabelArray cpuLabels).run newDatabase).toOption.map (·.1) = some [1, 2, 3] ∧
      (∀ l ∈ [⟨1, "__name__", "cpu"⟩, ⟨2, "a", "1"⟩, ⟨3, "b", "2"⟩],
        l ∈ (droppedBetween.foldl step newDatabase).label.rows) ∧
      ((getOrCreateLabelArray cpuLabels).run (droppedBetween.foldl step newDatabase)).toOption.map
        (·.1) = some [1, 3, 2]) ∧
    ((getOrCreateSeriesId cpuLabels).run newDatabase).toOption.map (·.1) = some 1 ∧
    ((getOrCreateSeriesId cpuLabels).run (deletedBetween.foldl step newDatabase)).toOption.map
      (·.1) = some 2 := by
  decide +kernel

end Promscale.Catalog
