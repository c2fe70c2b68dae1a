import Promscale.Catalog.PgNames
import Promscale.Catalog.PositionRuns

/-!
# Names of label columns

A label key has two column names, one for the values and one for the ids of its labels.
Those of two keys are told apart by the keys, unless one is a reserved word and the other
what it is prefixed to, or the names first differ behind the 63 bytes of a name.
-/
namespace Promscale.Catalog

open Promscale.Lib

/-- The column name of a label key before it is cut off. -/
def uncutColumnName (id : Bool) (newId : Nat) (newKey : String) : String :=
  if id then untruncatedName (newKey ++ "_id") (toString newId ++ "_id")
  else untruncatedName newKey (toString newId)

/-- The id of a label key, or the one it gets when it is created next. -/
def labelKeyIdOf (c : Catalog) (key : String) : Nat :=
  match c.findLabelKey key with
  | some lk => lk.id
  | none => c.labelKeyIdSeq + 1

/-- The column for a label key in the views, before its name is cut off. -/
def uncutColumn (c : Catalog) (id : Bool) (key : String) : String :=
  uncutColumnName id (c.labelKeyIdOf (viewKey key)) (viewKey key)

/-- Rows have the names `create_label_key` gives them. -/
def LabelKeysNamed (c : Catalog) : Prop := ∀ lk ∈ c.labelKey.rows, ∃ id, lk = newLabelKey id lk.key

theorem newLabelKey_columnName (id : Bool) (newId : Nat) (key : String) :
    (if id then (newLabelKey newId key).idColumnName else (newLabelKey newId key).valueColumnName) =
      castName (uncutColumnName id newId key) := by
  cases id <;> exact pgNameUnique_eq _ _

/-! ## Distinct names -/

theorem append_right_ne {s t : String} (h : s ≠ t) (rest : String) : s ++ rest ≠ t ++ rest := by
  intro heq
  have heq := congrArg String.toList heq
  rw [String.toList_append, String.toList_append] at heq
  exact h (String.toList_inj.mp (List.append_cancel_right heq))

/-- A short name comes from itself only. -/
theorem castNameChars_eq_short {s t : List Char} {room : Nat} (hroom : utf8Length t + 4 ≤ room)
    (h : castNameChars s room = t) : s = t := by
  induction s generalizing t room with
  | nil => exact h
  | cons ch s ih =>
    have hch := ch.utf8Size_le_four
    unfold castNameChars at h
    rw [if_pos (by omega)] at h
    subst h
    simp only [utf8Length_cons] at hroom
    have hrest : s = castNameChars s (room - ch.utf8Size) := ih (by omega) rfl
    exact congrArg (ch :: ·) hrest

theorem castName_eq_short {s t : String} (ht : utf8Length t.toList ≤ 59) (h : castName s = t) :
    s = t := by
  have hchars := congrArg String.toList h
  rw [castName, String.toList_ofList] at hchars
  exact String.toList_inj.mp (castNameChars_eq_short (by omega) hchars)

/-- A name with a suffix is longer than any fixed column. -/
theorem untruncatedName_eq_short {fullNameArg suffix t : String} (ht : t.length < 62)
    (h : untruncatedName fullNameArg suffix = t) : fullNameArg = t := by
  unfold untruncatedName at h
  split at h
  · exact h
  · rename_i hlong
    have hunderscore : "_".length = 1 := rfl
    have hlength := congrArg String.length h
    have hchars : fullNameArg.toList.length = fullNameArg.length := String.length_toList
    rw [String.length_append, String.length_append, String.length_ofList, List.length_take] at hlength
    omega

theorem viewKey_not_reserved (key : String) : viewKey key ∉ reservedColumns := by
  unfold viewKey
  split
  · rename_i h
    revert h
    unfold reservedColumns
    simp only [List.mem_cons, List.not_mem_nil, or_false]
    rintro (rfl | rfl | rfl | rfl | rfl) <;> decide
  · assumption

theorem fixedColumns_short (id : Bool) :
    ∀ t ∈ fixedColumns id, utf8Length t.toList ≤ 59 ∧ t.length < 62 := by
  cases id <;> decide

/-- A key whose id column would have the name of a fixed one. -/
theorem eq_series_of_id {key t : String} (ht : t ∈ fixedColumns true) (h : key ++ "_id" = t) :
    key = "series" := by
  have hlast : t.toList.getLast? = some 'd' := by
    rw [← h, String.toList_append]
    exact List.getLast?_append_of_ne_nil _ (by decide)
  have hfixed : ∀ t ∈ fixedColumns true, t.toList.getLast? = some 'd' → t = "series" ++ "_id" := by
    decide
  rw [hfixed t ht hlast] at h
  by_contra hne
  exact append_right_ne hne "_id" h

/-- No label column has the name of a fixed one. -/
theorem uncutColumnName_not_fixed (id : Bool) (newId : Nat) (key : String) :
    castName (uncutColumnName id newId (viewKey key)) ∉ fixedColumns id := by
  have hreserved := viewKey_not_reserved key
  intro hmem
  obtain ⟨hbytes, hlength⟩ := fixedColumns_short id _ hmem
  have hname := castName_eq_short hbytes rfl
  rw [← hname] at hmem hlength
  cases id with
  | true =>
    have hkey := untruncatedName_eq_short hlength rfl
    have hseries := eq_series_of_id hmem hkey
    exact hreserved (by rw [hseries]; decide)
  | false =>
    have hkey := untruncatedName_eq_short hlength rfl
    have hmem : viewKey key ∈ fixedColumns false := by rw [hkey]; exact hmem
    have hsubset : fixedColumns false ⊆ reservedColumns := by decide
    exact hreserved (hsubset hmem)

/-! ## Runs -/

/-- A call that makes label keys, or any other change: positions go with their metrics, and
label keys without a position may be deleted. -/
inductive LabelKeyStep : Catalog → Catalog → Prop
  | positions {c c' : Catalog} {metricName metricTable : String} {keyNameArray : List String}
      {isForExemplar : Bool} {positions : List Nat}
      (h : (getNewPosForKey metricName metricTable keyNameArray isForExemplar).run c =
        .ok (positions, c')) : LabelKeyStep c c'
  | labelKey {c c' : Catalog} {key : String} {lk : LabelKey}
      (h : (getOrCreateLabelKey key).run c = .ok (lk, c')) : LabelKeyStep c c'
  | other {c c' : Catalog} (kept : Bool → String → Bool)
      (hpositions : ∀ isForExemplar, c'.positionRows isForExemplar =
        (c.positionRows isForExemplar).filter fun p => kept isForExemplar p.metricName)
      (hdeleted : ∀ lk ∈ c'.labelKey.rows, lk ∈ c.labelKey.rows)
      (hlabelKey : ∀ p ∈ c'.positionRows false, ∀ lk ∈ c.labelKey.rows, lk.key = p.key →
        lk ∈ c'.labelKey.rows) : LabelKeyStep c c'

abbrev LabelKeyRun : Catalog → Catalog → Prop := Relation.ReflTransGen LabelKeyStep

theorem PositionsCompact.of_kept {c c' : Catalog} (h : c.PositionsCompact)
    (kept : Bool → String → Bool)
    (hpositions : ∀ isForExemplar, c'.positionRows isForExemplar =
      (c.positionRows isForExemplar).filter fun p => kept isForExemplar p.metricName)
    (hlabelKey : ∀ p ∈ c'.positionRows false, ∀ lk ∈ c.labelKey.rows, lk.key = p.key →
      lk ∈ c'.labelKey.rows) : c'.PositionsCompact where
  counted isForExemplar metricName := by
    have hcounted : c'.counted isForExemplar metricName =
        if kept isForExemplar metricName then c.counted isForExemplar metricName else [] := by
      unfold Catalog.counted
      rw [hpositions, List.filter_filter]
      split
      · rename_i hkept
        refine List.filter_congr ?_
        intro p _
        by_cases hname : p.metricName = metricName <;> simp [hname, hkept]
      · rename_i hgone
        rw [List.filter_eq_nil_iff]
        intro p _
        by_cases hname : p.metricName = metricName <;> simp [hname, hgone]
    rw [hcounted]
    split
    · exact h.counted isForExemplar metricName
    · rfl
  name p hp := by
    rw [hpositions] at hp
    exact h.name p (List.mem_filter.mp hp).1
  labelKey p hp := by
    have hold := hp
    rw [hpositions] at hold
    obtain ⟨lk, hlk, hkey⟩ := h.labelKey p (List.mem_filter.mp hold).1
    exact ⟨lk, hlabelKey p hp lk hlk hkey, hkey⟩

theorem LabelKeysNamed.of_grow {c c' : Catalog} (h : c.LabelKeysNamed) (hgrow : PositionsGrow c c') :
    c'.LabelKeysNamed := by
  intro lk hlk
  rcases hgrow.newLabelKey lk hlk with hold | hnew
  · exact h lk hold
  · exact hnew

/-- What every run keeps. -/
theorem labelKeyRun_keeps {c c' : Catalog} (h : c.PositionsCompact) (hnamed : c.LabelKeysNamed)
    (hrun : LabelKeyRun c c') : c'.PositionsCompact ∧ c'.LabelKeysNamed := by
  induction hrun with
  | refl => exact ⟨h, hnamed⟩
  | tail _ hstep ih =>
    cases hstep with
    | positions hcall =>
      have heffect := getNewPosForKey_effect ih.1 _ _ _ _ _ _ hcall
      exact ⟨heffect.compact, ih.2.of_grow heffect.grow⟩
    | labelKey hcall =>
      obtain ⟨hadds, _⟩ := getOrCreateLabelKey_adds _ _ _ _ hcall
      refine ⟨ih.1.of_sameRows hadds.sameRows ?_, ih.2.of_grow hadds.toPositionsGrow⟩
      intro p _ lk hlk _
      exact hadds.labelKey lk hlk
    | other kept hpositions hdeleted hlabelKey =>
      exact ⟨ih.1.of_kept kept hpositions hlabelKey, fun lk hlk => ih.2 lk (hdeleted lk hlk)⟩

/-! ## Columns -/

theorem LabelKeysNamed.eq {c : Catalog} (hnamed : c.LabelKeysNamed) {lk : LabelKey} (h : lk ∈ c.labelKey.rows) :
    lk = newLabelKey lk.id lk.key := by
  obtain ⟨id, hlk⟩ := hnamed lk h
  have hid : lk.id = id := by rw [hlk]; rfl
  rw [hid]
  exact hlk

theorem labelKeyIdOf_eq {c : Catalog} {lk : LabelKey} (h : lk ∈ c.labelKey.rows) :
    c.labelKeyIdOf lk.key = lk.id := by
  have hfind : c.findLabelKey lk.key = some lk := by
    refine c.labelKey.find?_eq_some_of_mem h (by simp) ?_
    intro r hr
    simp [LabelKey.constraints, of_decide_eq_true hr]
  unfold labelKeyIdOf
  rw [hfind]

theorem getOrCreateLabelKey_row {c : Catalog} (hnamed : c.LabelKeysNamed) (key : String) :
    Ensures (getOrCreateLabelKey key) c fun lk c' =>
      lk = newLabelKey (c.labelKeyIdOf key) key ∧ lk ∈ c'.labelKey.rows ∧ AddsLabelKeys c c' := by
  have hadds := getOrCreateLabelKey_adds c key
  refine (hadds.and ?_).mono fun lk c' h => ⟨h.2, h.1.2.1, h.1.1⟩
  unfold getOrCreateLabelKey
  apply Ensures.bind
  apply Ensures.get
  split
  · rename_i lk hfind
    apply Ensures.pure
    have hmem := List.mem_of_find?_eq_some hfind
    have hkey := List.find?_some hfind
    rw [← of_decide_eq_true hkey, labelKeyIdOf_eq hmem]
    exact hnamed.eq hmem
  · rename_i hnone
    have hid : c.labelKeyIdOf key = c.labelKeyIdSeq + 1 := by
      unfold labelKeyIdOf
      rw [hnone]
    unfold createLabelKey
    apply Ensures.bind
    apply Ensures.get
    split
    · apply Ensures.bind
      apply Ensures.set
      apply Ensures.pure
      rw [hid]
    · rw [hnone]
      exact Ensures.throw

theorem getLabelKeyColumnNameForView_name {c : Catalog} (hnamed : c.LabelKeysNamed)
    (key : String) (id : Bool) :
    Ensures (getLabelKeyColumnNameForView key id) c fun column c' =>
      column = castName (c.uncutColumn id key) ∧ AddsLabelKeys c c' ∧
        c'.labelKeyIdOf (viewKey key) = c.labelKeyIdOf (viewKey key) := by
  unfold getLabelKeyColumnNameForView
  apply Ensures.bind
  refine (getOrCreateLabelKey_row hnamed (viewKey key)).mono ?_
  rintro lk c' ⟨rfl, hlk, hadds⟩
  apply Ensures.pure
  exact ⟨newLabelKey_columnName id _ _, hadds, labelKeyIdOf_eq hlk⟩

theorem uncutColumnName_short {key : String} (h : key.length < 59) (id : Bool) (i j : Nat) :
    uncutColumnName id i key = uncutColumnName id j key := by
  have hlength : (key ++ "_id").length = key.length + 3 := String.length_append ..
  cases id with
  | true =>
    have hshort : (key ++ "_id").length < 62 := by omega
    simp only [uncutColumnName, untruncatedName, if_true, if_pos hshort]
  | false =>
    have hshort : key.length < 62 := by omega
    simp only [uncutColumnName, untruncatedName, Bool.false_eq_true, if_false, if_pos hshort]

/-- The column of a key with a position, named when all label keys have their rows. -/
theorem HasColumn.eq_castName {c c' : Catalog} (h : c.PositionsCompact) (hnamed : c.LabelKeysNamed)
    (hadds : AddsLabelKeys c c') {metricName : String} {id : Bool} {p : LabelKeyPosition}
    (hp : p ∈ c.counted false metricName) {column : String} (hcolumn : c'.HasColumn id p column) :
    column = castName (c.uncutColumn id p.key) := by
  have hnamed' := hnamed.of_grow hadds.toPositionsGrow
  obtain ⟨lk, hlk, hkey, rfl⟩ := hcolumn
  have hrow := hnamed'.eq hlk
  rw [hrow, newLabelKey_columnName, hkey]
  by_cases hreserved : p.key ∈ reservedColumns
  · have hview : viewKey p.key = "label_" ++ p.key := if_pos hreserved
    have hshort : (viewKey p.key).length < 59 := by
      rw [hview]
      exact reservedColumns_short hreserved
    unfold uncutColumn
    rw [uncutColumnName_short hshort]
  · have hview : viewKey p.key = p.key := if_neg hreserved
    obtain ⟨old, hold, holdKey⟩ := h.labelKey p ((mem_counted _ _ _ _).mp hp).1
    have hsame := labelKey_unique (hadds.labelKey old hold) hlk (by rw [holdKey, hkey, hview])
    unfold uncutColumn
    rw [hview, ← holdKey, labelKeyIdOf_eq hold, hsame]

theorem positionedColumns_names {c : Catalog} (h : c.PositionsCompact) (hnamed : c.LabelKeysNamed)
    (metricName : String) (id : Bool) :
    Ensures (positionedColumns metricName id) c fun columns c' => AddsLabelKeys c c' ∧
      columns = (c.counted false metricName).map fun p =>
        ⟨castName (c.uncutColumn id p.key), some p.pos⟩ := by
  refine (positionedColumns_columns h metricName id).mono ?_
  rintro columns c' ⟨hadds, hcolumns⟩
  refine ⟨hadds, ?_⟩
  have hcolumns := (List.forall₂_and_left _ _).mpr ⟨fun p hp => hp, hcolumns⟩
  rw [eq_comm, ← List.forall₂_eq_eq_eq, List.forall₂_map_left_iff]
  refine hcolumns.imp ?_
  rintro p ⟨name, pos⟩ ⟨hp, hpos, hcolumn⟩
  rw [← hcolumn.eq_castName h hnamed hadds hp, ← hpos]

theorem labelColumns_names {c : Catalog} (h : c.PositionsCompact) (hnamed : c.LabelKeysNamed)
    (metricName : String) (id : Bool) :
    Ensures (labelColumns metricName id) c fun columns _ =>
      columns = (c.counted false metricName).map fun p => castName (c.uncutColumn id p.key) := by
  unfold labelColumns
  apply Ensures.bind
  refine (positionedColumns_names h hnamed metricName id).mono ?_
  rintro _ c' ⟨-, rfl⟩
  exact Ensures.pure (List.map_map ..)

/-- The columns of a view are distinct exactly when those of its label keys are before they are
cut off and differ within the 63 bytes. -/
theorem columnNames_distinct_iff (collate : String → String → Bool) (timescaledbInstalled : Bool)
    (epochDuration : Int) {c : Catalog}
    (hrun : LabelKeyRun (init collate timescaledbInstalled epochDuration) c) (id : Bool) :
    (∀ key key' column column' c₁ c₂, key ≠ key' →
      (getLabelKeyColumnNameForView key id).run c = .ok (column, c₁) →
      (getLabelKeyColumnNameForView key' id).run c₁ = .ok (column', c₂) →
      (column ≠ column' ↔ viewKey key ≠ viewKey key' ∧
        differWithin (c.uncutColumn id key).toList (c₁.uncutColumn id key').toList 63 = true) ∧
      column ∉ fixedColumns id ∧ column' ∉ fixedColumns id) ∧
    ∀ metricName columns c', (labelColumns metricName id).run c = .ok (columns, c') →
      ((fixedColumns id ++ columns).Nodup ↔
        (c.counted false metricName).Pairwise fun p q => viewKey p.key ≠ viewKey q.key ∧
          differWithin (c.uncutColumn id p.key).toList (c.uncutColumn id q.key).toList 63 = true) := by
  obtain ⟨hcompact, hnamed⟩ := labelKeyRun_keeps (init_positionsCompact _ _ _)
    (fun lk hlk => by cases hlk) hrun
  constructor
  · intro key key' column column' c₁ c₂ _ hcall hcall'
    obtain ⟨rfl, hadds, hid⟩ := getLabelKeyColumnNameForView_name hnamed key id _ _ hcall
    have hnamed₁ := hnamed.of_grow hadds.toPositionsGrow
    obtain ⟨rfl, _⟩ := getLabelKeyColumnNameForView_name hnamed₁ key' id _ _ hcall'
    refine ⟨?_, uncutColumnName_not_fixed id _ key, uncutColumnName_not_fixed id _ key'⟩
    rw [castName_ne_iff]
    refine ⟨fun hdiffer => ⟨?_, hdiffer⟩, And.right⟩
    intro hview
    have hsame : c₁.uncutColumn id key' = c.uncutColumn id key := by
      unfold uncutColumn
      rw [← hview, hid]
    rw [hsame, ← castName_ne_iff] at hdiffer
    exact hdiffer rfl
  · intro metricName columns c' hcall
    rw [labelColumns_names hcompact hnamed metricName id _ _ hcall, List.nodup_append]
    have hfixed : (fixedColumns id).Nodup := by cases id <;> decide
    have hapart : ∀ a ∈ fixedColumns id, ∀ b ∈ (c.counted false metricName).map
        (fun p => castName (c.uncutColumn id p.key)), a ≠ b := by
      rintro a ha b hb rfl
      obtain ⟨p, _, hp⟩ := List.mem_map.mp hb
      rw [← hp] at ha
      exact uncutColumnName_not_fixed id _ p.key ha
    rw [and_iff_right hfixed, and_iff_left hapart, List.Nodup, List.pairwise_map]
    refine List.Pairwise.iff ?_
    intro p q
    rw [castName_ne_iff]
    refine ⟨fun hdiffer => ⟨?_, hdiffer⟩, And.right⟩
    intro hview
    have hsame : c.uncutColumn id p.key = c.uncutColumn id q.key := by
      unfold uncutColumn
      rw [hview]
    rw [hsame, ← castName_ne_iff] at hdiffer
    exact hdiffer rfl

def emptyCatalog : Catalog := init (fun a b => decide (a ≤ b)) true 0

theorem columnNames_distinct_host_job : ∃ c₁ c₂,
    (getLabelKeyColumnNameForView "host" false).run emptyCatalog = .ok ("host", c₁) ∧
    (getLabelKeyColumnNameForView "job" false).run c₁ = .ok ("job", c₂) ∧
    ("host" ≠ "job" ↔ viewKey "host" ≠ viewKey "job" ∧
      differWithin (emptyCatalog.uncutColumn false "host").toList
        (c₁.uncutColumn false "job").toList 63 = true) :=
  ⟨_, _, rfl, rfl, ((columnNames_distinct_iff _ _ _ .refl false).1 "host" "job" _ _ _ _ (by decide)
    rfl rfl).1⟩

/-- A metric with both keys gets no views, so its samples cannot be ingested. -/
theorem columnNames_clash :
    (∃ c₁ c₂, (getLabelKeyColumnNameForView "time" false).run emptyCatalog =
        .ok ("label_time", c₁) ∧
      (getLabelKeyColumnNameForView "label_time" false).run c₁ = .ok ("label_time", c₂)) ∧
    ∃ e, (getNewPosForKey "cpu" "cpu" ["time", "label_time"] false).run cpuMetric =
      .error (.raised e) ∧ e.message = "column \"label_time\" specified more than once" :=
  ⟨⟨_, _, rfl, rfl⟩, _, rfl, rfl⟩

end Promscale.Catalog
