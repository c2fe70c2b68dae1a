import Mathlib.Logic.Relation
import Promscale.Catalog.PositionGrowth

/-!
# Runs of `get_new_pos_for_key`

Calls for any metrics and keys, in any order and among other changes to the catalog. The
positions of a metric are compact and stay for good, and the columns of its views are only
added to.
-/
namespace Promscale.Catalog

open Promscale.Lib

theorem getLabelKeyColumnNameForView_returns {c : Catalog} {id : Bool} {p : LabelKeyPosition}
    {column : String} (h : c.HasColumn id p column) :
    (getLabelKeyColumnNameForView p.key id).run c = .ok (column, c) := by
  obtain ⟨lk, hlk, hkey, rfl⟩ := h
  have hfind : c.findLabelKey (viewKey p.key) = some lk := by
    refine c.labelKey.find?_eq_some_of_mem hlk (by simpa using hkey) ?_
    intro r hr
    simp [LabelKey.constraints, of_decide_eq_true hr, hkey]
  have hlabelKey : (getOrCreateLabelKey (viewKey p.key)).run c = .ok (lk, c) := by
    unfold getOrCreateLabelKey
    rw [StateT.run_bind, StateT.run_get, pure_bind, hfind]
    rfl
  unfold getLabelKeyColumnNameForView
  rw [StateT.run_bind]
  unfold viewKey at hlabelKey
  rw [hlabelKey]
  rfl

/-- A column list over positions that have their label keys is the only one. -/
theorem columns_unique {c c' : Catalog} (h : c.PositionsCompact) (hgrow : PositionsGrow c c')
    {metricName : String} {id : Bool} {as bs : List String}
    (ha : List.Forall₂ (c.HasColumn id) (c.counted false metricName) as)
    (hb : List.Forall₂ (c'.HasColumn id) (c.counted false metricName) bs) : as = bs := by
  have hbegins : as <+: bs := by
    refine prefix_of_forall₂ List.prefix_rfl ha hb ?_
    intro p hp a b ha hb
    exact hasColumn_unique (.refl c) hgrow (h.labelKey p ((mem_counted _ _ _ _).mp hp).1) ha hb
  exact hbegins.eq_of_length (ha.length_eq.symm.trans hb.length_eq)

/-- When the label keys are there, the columns are listed without a change. -/
theorem labelColumns_returns {c : Catalog} (hcompact : c.PositionsCompact) {metricName : String}
    {id : Bool} {columns : List String}
    (h : List.Forall₂ (c.HasColumn id) (c.counted false metricName) columns) :
    (labelColumns metricName id).run c = .ok (columns, c) := by
  have hlisted : ∃ listed, (labelColumns metricName id).run c = .ok (listed, c) := by
    have hrows : (c.labelKeyPosition.rows.filter fun p =>
        p.metricName = metricName && p.key ≠ nameKey) = c.counted false metricName := rfl
    have hround : ∀ p ∈ c.counted false metricName, ∃ column,
        (do
          let column ← getLabelKeyColumnNameForView p.key id
          pure (p.pos, column) : Sql (Nat × String)).run c = .ok (column, c) := by
      intro p hp
      obtain ⟨column, -, hcolumn⟩ := exists_right h hp
      refine ⟨(p.pos, column), ?_⟩
      rw [StateT.run_bind, getLabelKeyColumnNameForView_returns hcolumn]
      rfl
    obtain ⟨listed, hlisted⟩ := mapM_returns hround
    refine ⟨((listed.insertionSort fun a b => a.1 ≤ b.1).map fun column =>
      (⟨column.2, some column.1⟩ : ViewColumn)).map (·.name), ?_⟩
    unfold labelColumns positionedColumns
    rw [StateT.run_bind, StateT.run_bind, StateT.run_get, pure_bind, hrows, StateT.run_bind, hlisted]
    rfl
  obtain ⟨listed, hlisted⟩ := hlisted
  obtain ⟨-, hcolumns⟩ := labelColumns_columns hcompact metricName id _ _ hlisted
  rw [hlisted, columns_unique hcompact (.refl c) h hcolumns]

/-! ## One call -/

/-- What a call that returns guarantees of the catalog it leaves. -/
structure CallEffect (c : Catalog) (metricName : String) (keyNameArray : List String)
    (isForExemplar : Bool) (positions : List Nat) (c' : Catalog) : Prop where
  grow : PositionsGrow c c'
  compact : c'.PositionsCompact
  positions : List.Forall₂ (fun key pos => c'.position isForExemplar metricName key = some pos)
    keyNameArray positions
  views : isForExemplar = false →
    (∃ key ∈ keyNameArray, c.position isForExemplar metricName key = none) →
      ∀ id, c'.ViewCurrent metricName id

theorem getNewPosForKey_effect {c : Catalog} (h : c.PositionsCompact)
    (metricName metricTable : String) (keyNameArray : List String) (isForExemplar : Bool) :
    Ensures (getNewPosForKey metricName metricTable keyNameArray isForExemplar) c
      (CallEffect c metricName keyNameArray isForExemplar) := by
  unfold getNewPosForKey
  apply Ensures.bind
  apply Ensures.get
  dsimp only
  split
  · rename_i hall
    have hpositions := forall₂_of_filterMap_length hall.2
    apply Ensures.pure
    refine ⟨.refl c, h, hpositions, ?_⟩
    rintro - ⟨key, hkey, hnone⟩
    -- the optimistic path is taken when no key is new
    have hknown : c.position isForExemplar metricName key ≠ none := by
      obtain ⟨pos, -, hpos⟩ := exists_right hpositions hkey
      rw [hpos]
      simp
    exact absurd hnone hknown
  · apply Ensures.bind
    refine (lockForPositions_same c metricTable isForExemplar).mono ?_
    rintro _ _ rfl
    apply Ensures.bind
    refine (positionLoop_adds keyNameArray h (h.maxPosition_eq isForExemplar metricName)).mono ?_
    rintro found c₁ ⟨hgrow₁, h₁, hfound, hcount⟩
    apply Ensures.bind
    refine (createViewsFor_replaces h₁ metricName isForExemplar found.2).mono ?_
    rintro _ c₂ ⟨hgrow₂, h₂, hviews⟩
    apply Ensures.pure
    refine ⟨hgrow₁.trans hgrow₂, h₂, hfound.imp fun _ _ hpos => hgrow₂.position hpos, ?_⟩
    intro hseries hnew
    exact hviews hseries (hcount hnew)

/-! ## Runs -/

/-- A call that returns, or a change to anything but the positions. The label keys that have
positions stay, as they do when `drop_metric` deletes those that no position needs. -/
inductive PositionStep : Catalog → Catalog → Prop
  | call {c c' : Catalog} {metricName metricTable : String} {keyNameArray : List String}
      {isForExemplar : Bool} {positions : List Nat}
      (h : (getNewPosForKey metricName metricTable keyNameArray isForExemplar).run c =
        .ok (positions, c')) : PositionStep c c'
  | other {c c' : Catalog} (hseries : c'.labelKeyPosition = c.labelKeyPosition)
      (hexemplar : c'.exemplarLabelKeyPosition = c.exemplarLabelKeyPosition)
      (hlabelKey : ∀ p ∈ c.labelKeyPosition.rows, ∀ lk ∈ c.labelKey.rows, lk.key = p.key →
        lk ∈ c'.labelKey.rows) : PositionStep c c'

abbrev PositionRun : Catalog → Catalog → Prop := Relation.ReflTransGen PositionStep

theorem positionRun_compact {c c' : Catalog} (h : c.PositionsCompact) (hrun : PositionRun c c') :
    c'.PositionsCompact := by
  induction hrun with
  | refl => exact h
  | tail _ hstep ih =>
    cases hstep with
    | call hcall => exact (getNewPosForKey_effect ih _ _ _ _ _ _ hcall).compact
    | other hseries hexemplar hlabelKey =>
      refine ih.of_sameRows ?_ hlabelKey
      intro isForExemplar
      unfold positionRows
      rw [hseries, hexemplar]

theorem positionRun_position {c c' : Catalog} (h : c.PositionsCompact) (hrun : PositionRun c c')
    {isForExemplar : Bool} {metricName key : String} {pos : Nat}
    (hpos : c.position isForExemplar metricName key = some pos) :
    c'.position isForExemplar metricName key = some pos := by
  induction hrun with
  | refl => exact hpos
  | tail hrun hstep ih =>
    cases hstep with
    | call hcall =>
      have hcompact := positionRun_compact h hrun
      exact (getNewPosForKey_effect hcompact _ _ _ _ _ _ hcall).grow.position ih
    | other hseries hexemplar hlabelKey =>
      unfold position at ih ⊢
      rw [hseries, hexemplar]
      exact ih

/-- The positions of a metric as its label arrays need them: those of `n` keys are the `n`
first, and `__name__` stands apart in series. -/
structure DistinctAndCompact (c : Catalog) (isForExemplar : Bool) (metricName : String) : Prop where
  distinct : ∀ key key' pos, c.position isForExemplar metricName key = some pos →
    c.position isForExemplar metricName key' = some pos → key = key'
  name : isForExemplar = false → ∀ pos, c.position isForExemplar metricName nameKey = some pos →
    pos = 1
  compact : ∃ n, ∀ pos, (∃ key, (isForExemplar = true ∨ key ≠ nameKey) ∧
      c.position isForExemplar metricName key = some pos) ↔
    firstPosition isForExemplar ≤ pos ∧ pos < firstPosition isForExemplar + n

theorem PositionsCompact.distinctAndCompact {c : Catalog} (h : c.PositionsCompact)
    (isForExemplar : Bool) (metricName : String) :
    c.DistinctAndCompact isForExemplar metricName := by
  refine ⟨?_, ?_, (c.counted isForExemplar metricName).length, fun pos => ?_⟩
  · intro key key' pos hpos hpos'
    rw [position_iff] at hpos hpos'
    rcases h.counted_or_name hpos with hcounted | ⟨hseries, hname, hone⟩
    · rcases h.counted_or_name hpos' with hcounted' | ⟨hseries, -, hone⟩
      · have := h.counted_inj hcounted hcounted' rfl
        exact congrArg LabelKeyPosition.key this
      · subst hseries
        have habove : 1 < pos := h.counted_above hcounted
        exact absurd hone (Nat.ne_of_gt habove)
    · rcases h.counted_or_name hpos' with hcounted' | ⟨-, hname', -⟩
      · subst hseries
        have habove : 1 < pos := h.counted_above hcounted'
        exact absurd hone (Nat.ne_of_gt habove)
      · exact hname.trans hname'.symm
  · rintro rfl pos hpos
    rw [position_iff] at hpos
    exact h.name _ hpos rfl
  · rw [← h.mem_iff pos]
    constructor
    · rintro ⟨key, hkey, hpos⟩
      rw [position_iff] at hpos
      exact ⟨_, (mem_counted _ _ _ _).mpr ⟨hpos, rfl, hkey⟩, rfl⟩
    · rintro ⟨p, hp, rfl⟩
      obtain ⟨hrow, rfl, hkey⟩ := (mem_counted _ _ _ _).mp hp
      exact ⟨p.key, hkey, (position_iff _ _ _ _ _).mpr hrow⟩

/-- Whatever calls have been made, positions are distinct and compact and stay what they are;
and the next call returns the positions of its keys and only adds columns. -/
theorem positions_of_calls (collate : String → String → Bool) (timescaledbInstalled : Bool)
    (epochDuration : Int) {c : Catalog}
    (hrun : PositionRun (init collate timescaledbInstalled epochDuration) c) :
    (∀ isForExemplar metricName, c.DistinctAndCompact isForExemplar metricName) ∧
    (∀ c', PositionRun c c' → ∀ isForExemplar metricName key pos,
      c.position isForExemplar metricName key = some pos →
        c'.position isForExemplar metricName key = some pos) ∧
    ∀ metricName metricTable keyNameArray isForExemplar positions c',
      (getNewPosForKey metricName metricTable keyNameArray isForExemplar).run c =
        .ok (positions, c') →
      keyNameArray.map (c'.position isForExemplar metricName) = positions.map some ∧
      (∀ metric id olds news c₁ c₂, (labelColumns metric id).run c = .ok (olds, c₁) →
        (labelColumns metric id).run c' = .ok (news, c₂) → olds <+: news) ∧
      (∀ view olds, c.views view = some olds →
        ∃ news, c'.views view = some news ∧ olds <+: news) ∧
      (isForExemplar = false →
        (∃ key ∈ keyNameArray, c.position isForExemplar metricName key = none) →
        ∃ m, c'.findMetric metricName = some m ∧ ∀ id, ∃ columns,
          (labelColumns metricName id).run c' = .ok (columns, c') ∧
            c'.views (viewSchema id, m.tableName) = some (fixedColumns id ++ columns)) := by
  have h := positionRun_compact (init_positionsCompact _ _ _) hrun
  refine ⟨h.distinctAndCompact, fun c' hrun' _ _ _ _ hpos => positionRun_position h hrun' hpos, ?_⟩
  intro metricName metricTable keyNameArray isForExemplar positions c' hcall
  have heffect := getNewPosForKey_effect h _ _ _ _ _ _ hcall
  refine ⟨?_, ?_, heffect.grow.views, ?_⟩
  · rw [← List.forall₂_eq_eq_eq, List.forall₂_map_left_iff, List.forall₂_map_right_iff]
    exact heffect.positions
  · intro metric id olds news c₁ c₂ holds hnews
    exact labelColumns_prefix h heffect.compact heffect.grow holds hnews
  · intro hseries hnew
    obtain ⟨m, hm, -⟩ := heffect.views hseries hnew false
    refine ⟨m, hm, fun id => ?_⟩
    obtain ⟨m', hm', columns, hcolumns, hview⟩ := heffect.views hseries hnew id
    obtain rfl := Option.some.inj (hm.symm.trans hm')
    exact ⟨columns, labelColumns_returns heffect.compact hcolumns, hview⟩

/-- A new database in which the metric `cpu` was created. -/
def cpuMetric : Catalog :=
  match (getOrCreateMetricTableName "cpu").run (init (fun a b => decide (a ≤ b)) true 0) with
  | .ok (_, c) => c
  | .error _ => init (fun a b => decide (a ≤ b)) true 0

theorem positions_of_calls_host :
    PositionRun (init (fun a b => decide (a ≤ b)) true 0) cpuMetric ∧
    ∃ c', (getNewPosForKey "cpu" "cpu" ["__name__", "host", "host"] false).run cpuMetric =
        .ok ([1, 2, 2], c') ∧
      ["__name__", "host", "host"].map (c'.position false "cpu") = [some 1, some 2, some 2] ∧
      c'.DistinctAndCompact false "cpu" ∧
      ∃ m, c'.findMetric "cpu" = some m ∧ ∀ id, ∃ columns,
        (labelColumns "cpu" id).run c' = .ok (columns, c') ∧
          c'.views (viewSchema id, m.tableName) = some (fixedColumns id ++ columns) := by
  have hrows : cpuMetric.labelKeyPosition.rows = [] ∧
      cpuMetric.exemplarLabelKeyPosition.rows = [] := by decide +kernel
  have hempty : ∀ t : Table LabelKeyPosition LabelKeyPosition.constraints, t.rows = [] →
      t = .empty := by
    rintro ⟨rows, unique, checked⟩ rfl
    rfl
  have hrun : PositionRun (init (fun a b => decide (a ≤ b)) true 0) cpuMetric :=
    .single (.other (hempty _ hrows.1) (hempty _ hrows.2) (fun p hp => by cases hp))
  have hreturned : ((getNewPosForKey "cpu" "cpu" ["__name__", "host", "host"] false).run
      cpuMetric).toOption.map (·.1) = some [1, 2, 2] := by decide +kernel
  have hnew : ∃ key ∈ ["__name__", "host", "host"], cpuMetric.position false "cpu" key = none := by
    decide +kernel
  cases hcall : (getNewPosForKey "cpu" "cpu" ["__name__", "host", "host"] false).run cpuMetric with
  | error e =>
    rw [hcall] at hreturned
    cases hreturned
  | ok returned =>
    obtain ⟨positions, c'⟩ := returned
    rw [hcall] at hreturned
    obtain rfl : positions = [1, 2, 2] := Option.some.inj hreturned
    obtain ⟨hpositions, -, -, hviews⟩ := (positions_of_calls _ _ _ hrun).2.2 _ _ _ _ _ _ hcall
    obtain ⟨hcompact, -, -⟩ := positions_of_calls _ _ _ (hrun.tail (.call hcall))
    exact ⟨hrun, c', rfl, hpositions, hcompact false "cpu", hviews rfl hnew⟩

end Promscale.Catalog
