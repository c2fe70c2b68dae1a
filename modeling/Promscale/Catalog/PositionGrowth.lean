import Promscale.Catalog.Positions

/-!
# What `get_new_pos_for_key` adds

It hands out the positions of a metric without gaps, and only adds to the columns of the
metric's views.
-/
namespace Promscale.Catalog

open Promscale.Lib

def positionRows (c : Catalog) (isForExemplar : Bool) : List LabelKeyPosition :=
  if isForExemplar then c.exemplarLabelKeyPosition.rows else c.labelKeyPosition.rows

/-- The first position but for that of `__name__` in series. -/
def firstPosition (isForExemplar : Bool) : Nat := if isForExemplar then 1 else 2

/-- The positions of a metric but for that of `__name__` in series. -/
def counted (c : Catalog) (isForExemplar : Bool) (metricName : String) : List LabelKeyPosition :=
  (c.positionRows isForExemplar).filter fun p =>
    p.metricName = metricName && (isForExemplar || p.key ≠ nameKey)

theorem position_iff (c : Catalog) (isForExemplar : Bool) (metricName key : String) (pos : Nat) :
    c.position isForExemplar metricName key = some pos ↔
      (⟨metricName, key, pos⟩ : LabelKeyPosition) ∈ c.positionRows isForExemplar := by
  cases isForExemplar with
  | false => exact findPosition_eq_some_iff c.labelKeyPosition metricName key pos
  | true => exact findPosition_eq_some_iff c.exemplarLabelKeyPosition metricName key pos

theorem mem_counted (c : Catalog) (isForExemplar : Bool) (metricName : String)
    (p : LabelKeyPosition) : p ∈ c.counted isForExemplar metricName ↔
      p ∈ c.positionRows isForExemplar ∧ p.metricName = metricName ∧
        (isForExemplar = true ∨ p.key ≠ nameKey) := by
  simp [counted]

/-! ## The invariant -/

/-- Positions are in the order of their rows, and their keys have columns. -/
structure PositionsCompact (c : Catalog) : Prop where
  counted : ∀ isForExemplar metricName, (c.counted isForExemplar metricName).map (·.pos) =
    List.range' (firstPosition isForExemplar) (c.counted isForExemplar metricName).length
  name : ∀ p ∈ c.positionRows false, p.key = nameKey → p.pos = 1
  labelKey : ∀ p ∈ c.positionRows false, ∃ lk ∈ c.labelKey.rows, lk.key = p.key

theorem init_positionsCompact (collate : String → String → Bool) (timescaledbInstalled : Bool)
    (epochDuration : Int) :
    (init collate timescaledbInstalled epochDuration).PositionsCompact where
  counted isForExemplar metricName := by
    cases isForExemplar <;> rfl
  name p hp _ := by cases hp
  labelKey p hp := by cases hp

namespace PositionsCompact

variable {c : Catalog} {isForExemplar : Bool} {metricName : String}

/-- The counted positions are those from the first on, one for each key. -/
theorem mem_iff (h : c.PositionsCompact) (pos : Nat) :
    (∃ p ∈ c.counted isForExemplar metricName, p.pos = pos) ↔
      firstPosition isForExemplar ≤ pos ∧
        pos < firstPosition isForExemplar + (c.counted isForExemplar metricName).length := by
  rw [← List.mem_map, h.counted isForExemplar metricName, List.mem_range'_1]

/-- `__name__` keeps position 1 to itself. -/
theorem counted_above (h : c.PositionsCompact) {p : LabelKeyPosition}
    (hp : p ∈ c.counted false metricName) : 1 < p.pos :=
  ((h.mem_iff p.pos).mp ⟨p, hp, rfl⟩).1

theorem counted_or_name (h : c.PositionsCompact) {p : LabelKeyPosition}
    (hp : p ∈ c.positionRows isForExemplar) :
    p ∈ c.counted isForExemplar p.metricName ∨ isForExemplar = false ∧ p.key = nameKey ∧ p.pos = 1 := by
  cases isForExemplar with
  | true => exact .inl ((mem_counted _ _ _ _).mpr ⟨hp, rfl, .inl rfl⟩)
  | false =>
    by_cases hkey : p.key = nameKey
    · exact .inr ⟨rfl, hkey, h.name p hp hkey⟩
    · exact .inl ((mem_counted _ _ _ _).mpr ⟨hp, rfl, .inr hkey⟩)

/-- No two counted keys of a metric have one position. -/
theorem counted_inj (h : c.PositionsCompact) {p q : LabelKeyPosition}
    (hp : p ∈ c.counted isForExemplar metricName) (hq : q ∈ c.counted isForExemplar metricName)
    (hpos : p.pos = q.pos) : p = q := by
  have hnodup : ((c.counted isForExemplar metricName).map (·.pos)).Nodup := by
    rw [h.counted isForExemplar metricName]
    exact List.nodup_range'
  exact List.inj_on_of_nodup_map hnodup hp hq hpos

theorem maxPosition_eq (h : c.PositionsCompact) (isForExemplar : Bool) (metricName : String) :
    c.maxPosition isForExemplar metricName =
      firstPosition isForExemplar + (c.counted isForExemplar metricName).length := by
  unfold Catalog.maxPosition
  dsimp only
  split
  · rename_i pos hmax
    change (((c.positionRows isForExemplar).filter fun p => p.metricName = metricName).map
      (·.pos)).max? = some pos at hmax
    rw [List.max?_eq_some_iff] at hmax
    obtain ⟨hmem, hle⟩ := hmax
    obtain ⟨p, hfilter, rfl⟩ := List.mem_map.mp hmem
    obtain ⟨hp, hname⟩ := List.mem_filter.mp hfilter
    obtain rfl := of_decide_eq_true hname
    -- the last of the counted positions, when there is one, is at most the greatest
    have hlast : (c.counted isForExemplar p.metricName).length = 0 ∨
        firstPosition isForExemplar + (c.counted isForExemplar p.metricName).length ≤ p.pos + 1 := by
      by_cases hzero : (c.counted isForExemplar p.metricName).length = 0
      · exact .inl hzero
      · obtain ⟨q, hq, hqpos⟩ := (@h.mem_iff _ isForExemplar p.metricName
          (firstPosition isForExemplar + (c.counted isForExemplar p.metricName).length - 1)).mpr
            (by omega)
        obtain ⟨hrow, hqname, -⟩ := (mem_counted _ _ _ _).mp hq
        have := hle q.pos (List.mem_map_of_mem (List.mem_filter.mpr ⟨hrow, by simpa using hqname⟩))
        omega
    change p.pos + 1 = _
    rcases h.counted_or_name hp with hcounted | ⟨rfl, -, hpos⟩
    · have := (h.mem_iff p.pos).mp ⟨p, hcounted, rfl⟩
      omega
    · have hfirst : firstPosition false = 2 := rfl
      omega
  · rename_i hnone
    change (((c.positionRows isForExemplar).filter fun p => p.metricName = metricName).map
      (·.pos)).max? = none at hnone
    rw [List.max?_eq_none_iff, List.map_eq_nil_iff, List.filter_eq_nil_iff] at hnone
    have hcounted : c.counted isForExemplar metricName = [] := by
      unfold Catalog.counted
      rw [List.filter_eq_nil_iff]
      intro p hp
      simp [of_decide_eq_false (Bool.eq_false_iff.mpr (hnone p hp))]
    rw [hcounted]
    rfl

end PositionsCompact

/-! ## What a call adds -/

/-- Position rows are added behind the old ones and columns behind the old ones. -/
structure PositionsGrow (c c' : Catalog) : Prop where
  rows : ∀ isForExemplar, c.positionRows isForExemplar <+: c'.positionRows isForExemplar
  labelKey : ∀ lk ∈ c.labelKey.rows, lk ∈ c'.labelKey.rows
  newLabelKey : ∀ lk ∈ c'.labelKey.rows, lk ∈ c.labelKey.rows ∨ ∃ id, lk = newLabelKey id lk.key
  views : ∀ view olds, c.views view = some olds → ∃ news, c'.views view = some news ∧ olds <+: news
  metric : c'.metric = c.metric

namespace PositionsGrow

theorem refl (c : Catalog) : PositionsGrow c c where
  rows _ := List.prefix_rfl
  labelKey _ hlk := hlk
  newLabelKey _ hlk := .inl hlk
  views _ olds h := ⟨olds, h, List.prefix_rfl⟩
  metric := rfl

theorem trans {c c' c'' : Catalog} (h : PositionsGrow c c') (h' : PositionsGrow c' c'') :
    PositionsGrow c c'' where
  rows isForExemplar := (h.rows isForExemplar).trans (h'.rows isForExemplar)
  labelKey lk hlk := h'.labelKey lk (h.labelKey lk hlk)
  newLabelKey lk hlk := by
    rcases h'.newLabelKey lk hlk with hlk | hnew
    · exact h.newLabelKey lk hlk
    · exact .inr hnew
  views view olds hold := by
    obtain ⟨news, hnews, hbegins⟩ := h.views view olds hold
    obtain ⟨news', hnews', hbegins'⟩ := h'.views view news hnews
    exact ⟨news', hnews', hbegins.trans hbegins'⟩
  metric := h'.metric.trans h.metric

theorem position {c c' : Catalog} (h : PositionsGrow c c') {isForExemplar : Bool}
    {metricName key : String} {pos : Nat}
    (hpos : c.position isForExemplar metricName key = some pos) :
    c'.position isForExemplar metricName key = some pos := by
  rw [position_iff] at hpos ⊢
  exact (h.rows isForExemplar).subset hpos

end PositionsGrow

/-- No position is new, and no view is replaced. -/
structure AddsLabelKeys (c c' : Catalog) : Prop extends PositionsGrow c c' where
  sameRows : ∀ isForExemplar, c'.positionRows isForExemplar = c.positionRows isForExemplar
  sameViews : c'.targetList = c.targetList

namespace AddsLabelKeys

theorem refl (c : Catalog) : AddsLabelKeys c c :=
  { PositionsGrow.refl c with
    sameRows := fun _ => rfl
    sameViews := rfl }

theorem trans {c c' c'' : Catalog} (h : AddsLabelKeys c c') (h' : AddsLabelKeys c' c'') :
    AddsLabelKeys c c'' :=
  { h.toPositionsGrow.trans h'.toPositionsGrow with
    sameRows := fun isForExemplar => (h'.sameRows isForExemplar).trans (h.sameRows isForExemplar)
    sameViews := h'.sameViews.trans h.sameViews }

end AddsLabelKeys

/-- Rows that are the same, and the label keys still there. -/
theorem PositionsCompact.of_sameRows {c c' : Catalog} (h : c.PositionsCompact)
    (hrows : ∀ isForExemplar, c'.positionRows isForExemplar = c.positionRows isForExemplar)
    (hlabelKey : ∀ p ∈ c.positionRows false, ∀ lk ∈ c.labelKey.rows, lk.key = p.key →
      lk ∈ c'.labelKey.rows) : c'.PositionsCompact where
  counted isForExemplar metricName := by
    have hcounted := h.counted isForExemplar metricName
    unfold Catalog.counted at hcounted ⊢
    rw [hrows]
    exact hcounted
  name p hp := h.name p (by rwa [hrows] at hp)
  labelKey p hp := by
    rw [hrows] at hp
    obtain ⟨lk, hlk, hkey⟩ := h.labelKey p hp
    exact ⟨lk, hlabelKey p hp lk hlk hkey, hkey⟩

theorem getOrCreateLabelKey_adds (c : Catalog) (key : String) :
    Ensures (getOrCreateLabelKey key) c fun lk c' =>
      AddsLabelKeys c c' ∧ lk ∈ c'.labelKey.rows ∧ lk.key = key := by
  unfold getOrCreateLabelKey
  apply Ensures.bind
  apply Ensures.get
  split
  · rename_i lk hfind
    apply Ensures.pure
    have hkey := List.find?_some hfind
    exact ⟨.refl c, List.mem_of_find?_eq_some hfind, of_decide_eq_true hkey⟩
  · unfold createLabelKey
    apply Ensures.bind
    apply Ensures.get
    split
    · rename_i labelKey hinsert
      apply Ensures.bind
      apply Ensures.set
      apply Ensures.pure
      have hmem := Table.mem_insert hinsert
      refine ⟨?_, (hmem _).mpr (.inr rfl), rfl⟩
      exact { AddsLabelKeys.refl c with
        rows := fun _ => List.prefix_rfl
        labelKey := fun lk hlk => (hmem lk).mpr (.inl hlk)
        newLabelKey := fun lk hlk => by
          rcases (hmem lk).mp hlk with hold | rfl
          · exact .inl hold
          · exact .inr ⟨_, rfl⟩ }
    · split
      · rename_i lk hfind
        apply Ensures.bind
        apply Ensures.set
        apply Ensures.pure
        have hkey := List.find?_some hfind
        refine ⟨?_, List.mem_of_find?_eq_some hfind, of_decide_eq_true hkey⟩
        exact { AddsLabelKeys.refl c with rows := fun _ => List.prefix_rfl }
      · exact Ensures.throw

/-! ## New positions -/

theorem counted_append {c c' : Catalog} {isForExemplar : Bool} {new : List LabelKeyPosition}
    (h : c'.positionRows isForExemplar = c.positionRows isForExemplar ++ new)
    (metricName : String) : c'.counted isForExemplar metricName =
      c.counted isForExemplar metricName ++ new.filter fun p =>
        p.metricName = metricName && (isForExemplar || p.key ≠ nameKey) := by
  unfold counted
  rw [h, List.filter_append]

/-- The row that a key without a position gets. -/
def nextPosition (c : Catalog) (isForExemplar : Bool) (metricName keyName : String) :
    LabelKeyPosition where
  metricName := metricName
  key := keyName
  pos := if !isForExemplar && keyName = nameKey then 1
    else firstPosition isForExemplar + (c.counted isForExemplar metricName).length

theorem nextPosition_compact {c c' : Catalog} {isForExemplar : Bool} {metricName keyName : String}
    (h : c.PositionsCompact)
    (hrows : c'.positionRows isForExemplar =
      c.positionRows isForExemplar ++ [c.nextPosition isForExemplar metricName keyName])
    (hother : c'.positionRows (!isForExemplar) = c.positionRows (!isForExemplar))
    (hlabelKey : c'.labelKey = c.labelKey)
    (hkey : isForExemplar = false → ∃ lk ∈ c.labelKey.rows, lk.key = keyName) :
    c'.PositionsCompact where
  counted ex name := by
    by_cases hex : ex = isForExemplar
    · subst hex
      rw [counted_append hrows, List.filter_cons]
      split
      · rename_i hcounted
        simp only [nextPosition, Bool.and_eq_true, decide_eq_true_eq, Bool.or_eq_true] at hcounted
        obtain ⟨rfl, hcounted⟩ := hcounted
        have hpos : (c.nextPosition ex metricName keyName).pos =
            firstPosition ex + (c.counted ex metricName).length := by
          apply if_neg
          rcases hcounted with rfl | hname
          · simp
          · simp [hname]
        rw [List.filter_nil, List.map_append, h.counted, List.map_singleton, hpos,
          List.length_append, List.length_singleton, List.range'_1_concat]
      · rw [List.filter_nil, List.append_nil]
        exact h.counted ex name
    · obtain rfl : ex = !isForExemplar := by
        cases ex <;> cases isForExemplar <;> simp_all
      have hcounted := h.counted (!isForExemplar) name
      unfold Catalog.counted at hcounted ⊢
      rw [hother]
      exact hcounted
  name p hp hname := by
    cases isForExemplar with
    | true => exact h.name p (hother ▸ hp) hname
    | false =>
      rw [hrows, List.mem_append, List.mem_singleton] at hp
      rcases hp with hp | rfl
      · exact h.name p hp hname
      · exact if_pos (by simpa [nextPosition] using hname)
  labelKey p hp := by
    rw [hlabelKey]
    cases isForExemplar with
    | true => exact h.labelKey p (hother ▸ hp)
    | false =>
      rw [hrows, List.mem_append, List.mem_singleton] at hp
      rcases hp with hp | rfl
      · exact h.labelKey p hp
      · exact hkey rfl

theorem insertPosition_adds (c : Catalog) (isForExemplar : Bool) (row : LabelKeyPosition) :
    Ensures (insertPosition isForExemplar row) c fun pos c' =>
      PositionsGrow c c' ∧ pos = row.pos ∧ c'.labelKey = c.labelKey ∧
        c'.positionRows isForExemplar = c.positionRows isForExemplar ++ [row] ∧
        c'.positionRows (!isForExemplar) = c.positionRows (!isForExemplar) := by
  unfold insertPosition
  apply Ensures.bind
  apply Ensures.get
  cases isForExemplar with
  | true =>
    rw [if_pos rfl]
    split
    · rename_i exemplar hinsert
      apply Ensures.bind
      apply Ensures.set
      apply Ensures.pure
      have hrows := ((Table.insert_eq_some_iff _ _ _ _).mp hinsert).2
      refine ⟨{ PositionsGrow.refl c with rows := fun ex => ?_ }, rfl, rfl, hrows, rfl⟩
      cases ex with
      | true => exact ⟨[row], hrows.symm⟩
      | false => exact List.prefix_rfl
    · exact Ensures.throw
  | false =>
    simp only [Bool.false_eq_true, if_false]
    split
    · rename_i positions hinsert
      apply Ensures.bind
      apply Ensures.set
      apply Ensures.pure
      have hrows := ((Table.insert_eq_some_iff _ _ _ _).mp hinsert).2
      refine ⟨{ PositionsGrow.refl c with rows := fun ex => ?_ }, rfl, rfl, hrows, rfl⟩
      cases ex with
      | true => exact List.prefix_rfl
      | false => exact ⟨[row], hrows.symm⟩
    · exact Ensures.throw

/-- The next position is the one that follows those handed out. -/
theorem insertNextPosition {c : Catalog} {isForExemplar : Bool} {metricName keyName : String}
    (h : c.PositionsCompact)
    (hkey : isForExemplar = false → ∃ lk ∈ c.labelKey.rows, lk.key = keyName) :
    Ensures (insertPosition isForExemplar (c.nextPosition isForExemplar metricName keyName)) c
      fun pos c' => PositionsGrow c c' ∧ c'.PositionsCompact ∧
        c'.position isForExemplar metricName keyName = some pos ∧
        (c'.counted isForExemplar metricName).length =
          if !isForExemplar && keyName = nameKey then (c.counted isForExemplar metricName).length
          else (c.counted isForExemplar metricName).length + 1 := by
  refine (insertPosition_adds c isForExemplar _).mono ?_
  rintro pos c' ⟨hgrow, rfl, hlabelKey, hrows, hother⟩
  refine ⟨hgrow, nextPosition_compact h hrows hother hlabelKey hkey, ?_, ?_⟩
  · rw [position_iff, hrows]
    exact List.mem_append_right _ (List.mem_singleton.mpr rfl)
  · rw [counted_append hrows, List.length_append]
    cases isForExemplar with
    | true => simp [nextPosition]
    | false =>
      by_cases hname : keyName = nameKey
      · simp [nextPosition, hname]
      · simp [nextPosition, hname]

theorem newPosition_adds {c : Catalog} {isForExemplar : Bool} {metricName keyName : String}
    {top : Nat} (h : c.PositionsCompact)
    (htop : top = firstPosition isForExemplar + (c.counted isForExemplar metricName).length) :
    Ensures (newPosition metricName keyName isForExemplar top) c fun pos c' =>
      PositionsGrow c c' ∧ c'.PositionsCompact ∧
        c'.position isForExemplar metricName keyName = some pos ∧
        (if !isForExemplar && keyName = nameKey then top else top + 1) =
          firstPosition isForExemplar + (c'.counted isForExemplar metricName).length := by
  unfold newPosition
  cases isForExemplar with
  | true =>
    rw [if_pos rfl]
    have hrow : (⟨metricName, keyName, top⟩ : LabelKeyPosition) =
        c.nextPosition true metricName keyName := by
      simp [nextPosition, htop]
    rw [hrow]
    refine (insertNextPosition h (by simp)).mono ?_
    rintro pos c' ⟨hgrow, hcompact, hpos, hlength⟩
    refine ⟨hgrow, hcompact, hpos, ?_⟩
    rw [hlength, htop]
    rfl
  | false =>
    simp only [Bool.false_eq_true, if_false]
    apply Ensures.bind
    refine (getOrCreateLabelKey_adds c keyName).mono ?_
    rintro lk c₁ ⟨hadds, hlk, hkey⟩
    have hcompact₁ := h.of_sameRows hadds.sameRows fun p _ lk hlk _ => hadds.labelKey lk hlk
    have hcounted : c₁.counted false metricName = c.counted false metricName := by
      unfold counted
      rw [hadds.sameRows]
    have hrow : (⟨metricName, keyName, if keyName = nameKey then 1 else top⟩ : LabelKeyPosition) =
        c₁.nextPosition false metricName keyName := by
      simp [nextPosition, htop, hcounted]
    rw [hrow]
    refine (insertNextPosition hcompact₁ fun _ => ⟨lk, hlk, hkey⟩).mono ?_
    rintro pos c' ⟨hgrow, hcompact, hpos, hlength⟩
    refine ⟨hadds.toPositionsGrow.trans hgrow, hcompact, hpos, ?_⟩
    rw [hlength, htop, hcounted]
    split <;> rfl

/-- Each round keeps the next position right, so the loop numbers the new keys in order. -/
theorem positionLoop_adds {isForExemplar : Bool} {metricName : String} (keys : List String)
    {c : Catalog} {top : Nat} (h : c.PositionsCompact)
    (htop : top = firstPosition isForExemplar + (c.counted isForExemplar metricName).length) :
    Ensures (positionLoop metricName isForExemplar keys top) c fun found c' =>
      PositionsGrow c c' ∧ c'.PositionsCompact ∧
        List.Forall₂ (fun key pos => c'.position isForExemplar metricName key = some pos) keys
          found.1 ∧
        ((∃ key ∈ keys, c.position isForExemplar metricName key = none) → 0 < found.2) := by
  induction keys generalizing c top with
  | nil => exact Ensures.pure ⟨.refl c, h, .nil, by simp⟩
  | cons keyName rest ih =>
    unfold positionLoop
    apply Ensures.bind
    apply Ensures.get
    split
    · rename_i pos hpos
      apply Ensures.bind
      refine (ih h htop).mono ?_
      rintro found c' ⟨hgrow, hcompact, hfound, hcount⟩
      apply Ensures.pure
      refine ⟨hgrow, hcompact, .cons (hgrow.position hpos) hfound, ?_⟩
      rintro ⟨key, hkey, hnone⟩
      rcases List.mem_cons.mp hkey with rfl | hkey
      · rw [hpos] at hnone
        cases hnone
      · exact hcount ⟨key, hkey, hnone⟩
    · apply Ensures.bind
      refine (newPosition_adds h htop).mono ?_
      rintro pos c₁ ⟨hgrow₁, hcompact₁, hpos, htop₁⟩
      apply Ensures.bind
      refine (ih hcompact₁ htop₁).mono ?_
      rintro found c₂ ⟨hgrow₂, hcompact₂, hfound, -⟩
      apply Ensures.pure
      exact ⟨hgrow₁.trans hgrow₂, hcompact₂, .cons (hgrow₂.position hpos) hfound,
        fun _ => Nat.succ_pos _⟩

/-! ## Columns of the views -/

def viewKey (labelKey : String) : String :=
  if labelKey ∈ reservedColumns then "label_" ++ labelKey else labelKey

def HasColumn (c : Catalog) (id : Bool) (p : LabelKeyPosition) (column : String) : Prop :=
  ∃ lk ∈ c.labelKey.rows, lk.key = viewKey p.key ∧
    column = if id then lk.idColumnName else lk.valueColumnName

/-- The name of a short key does not depend on its id. -/
theorem pgNameUnique_short {fullName : String} (h : fullName.length < 62) (suffix suffix' : String) :
    pgNameUnique fullName suffix = pgNameUnique fullName suffix' := by
  unfold pgNameUnique
  rw [if_pos h, if_pos h]

theorem newLabelKey_short {key : String} (h : key.length < 59) (newId newId' : Nat) :
    (newLabelKey newId key).valueColumnName = (newLabelKey newId' key).valueColumnName ∧
      (newLabelKey newId key).idColumnName = (newLabelKey newId' key).idColumnName := by
  refine ⟨pgNameUnique_short (by omega) _ _, pgNameUnique_short ?_ _ _⟩
  have hid : "_id".length = 3 := rfl
  rw [String.length_append]
  omega

theorem reservedColumns_short {labelKey : String} (h : labelKey ∈ reservedColumns) :
    ("label_" ++ labelKey).length < 59 := by
  revert labelKey
  decide

theorem labelKey_unique {c : Catalog} {lk lk' : LabelKey} (h : lk ∈ c.labelKey.rows)
    (h' : lk' ∈ c.labelKey.rows) (hkey : lk.key = lk'.key) : lk = lk' :=
  c.labelKey.eq_of_conflict h h' (by simp [LabelKey.constraints, hkey])

/-- A key that has its row in `c` has one column name in every catalog that has grown from
`c`, and so has a reserved one, with or without a row. -/
theorem hasColumn_unique {c c₁ c₂ : Catalog} {id : Bool} {p : LabelKeyPosition} {a b : String}
    (h₁ : PositionsGrow c c₁) (h₂ : PositionsGrow c c₂)
    (hkey : ∃ lk ∈ c.labelKey.rows, lk.key = p.key) (ha : c₁.HasColumn id p a)
    (hb : c₂.HasColumn id p b) : a = b := by
  obtain ⟨lk₁, hlk₁, hkey₁, rfl⟩ := ha
  obtain ⟨lk₂, hlk₂, hkey₂, rfl⟩ := hb
  have hsame : ∀ lk ∈ c.labelKey.rows, lk.key = viewKey p.key → lk₁ = lk₂ := by
    intro lk hlk hviewKey
    have heq₁ := labelKey_unique (h₁.labelKey lk hlk) hlk₁ (hviewKey.trans hkey₁.symm)
    have heq₂ := labelKey_unique (h₂.labelKey lk hlk) hlk₂ (hviewKey.trans hkey₂.symm)
    exact heq₁.symm.trans heq₂
  rcases h₁.newLabelKey lk₁ hlk₁ with hold | ⟨newId₁, hnew₁⟩
  · rw [hsame lk₁ hold hkey₁]
  rcases h₂.newLabelKey lk₂ hlk₂ with hold | ⟨newId₂, hnew₂⟩
  · rw [hsame lk₂ hold hkey₂]
  by_cases hreserved : p.key ∈ reservedColumns
  · have hview : viewKey p.key = "label_" ++ p.key := if_pos hreserved
    obtain ⟨hvalue, hid⟩ := newLabelKey_short (reservedColumns_short hreserved) newId₁ newId₂
    rw [hnew₁, hnew₂, hkey₁, hkey₂, hview, hvalue, hid]
  · obtain ⟨lk, hlk, hlkKey⟩ := hkey
    have hview : viewKey p.key = p.key := if_neg hreserved
    rw [hsame lk hlk (hlkKey.trans hview.symm)]

theorem hasColumn_mono {c c' : Catalog} (h : PositionsGrow c c') {id : Bool}
    {p : LabelKeyPosition} {column : String} (hcolumn : c.HasColumn id p column) :
    c'.HasColumn id p column := by
  obtain ⟨lk, hlk, hkey⟩ := hcolumn
  exact ⟨lk, h.labelKey lk hlk, hkey⟩

theorem getLabelKeyColumnNameForView_column (c : Catalog) (p : LabelKeyPosition) (id : Bool) :
    Ensures (getLabelKeyColumnNameForView p.key id) c fun column c' =>
      AddsLabelKeys c c' ∧ c'.HasColumn id p column := by
  unfold getLabelKeyColumnNameForView
  apply Ensures.bind
  refine (getOrCreateLabelKey_adds c _).mono ?_
  rintro lk c' ⟨hadds, hlk, hkey⟩
  apply Ensures.pure
  exact ⟨hadds, lk, hlk, hkey, rfl⟩

/-- The positions are in order already. -/
theorem positionedColumns_columns {c : Catalog} (h : c.PositionsCompact) (metricName : String)
    (id : Bool) :
    Ensures (positionedColumns metricName id) c fun columns c' =>
      AddsLabelKeys c c' ∧ List.Forall₂ (fun p column => column.pos = some p.pos ∧
        c'.HasColumn id p column.name) (c.counted false metricName) columns := by
  have hrows : (c.labelKeyPosition.rows.filter fun p =>
      p.metricName = metricName && p.key ≠ nameKey) = c.counted false metricName := rfl
  unfold positionedColumns
  apply Ensures.bind
  apply Ensures.get
  rw [hrows]
  apply Ensures.bind
  refine (Ensures.mapM_forall₂ (AddsLabelKeys c)
    (fun c' p column => column.1 = p.pos ∧ c'.HasColumn id p column.2) (.refl c) ?_).mono ?_
  · intro p _ c₁ hadds₁
    apply Ensures.bind
    refine (getLabelKeyColumnNameForView_column c₁ p id).mono ?_
    rintro column c₂ ⟨hadds₂, hcolumn⟩
    apply Ensures.pure
    refine ⟨hadds₁.trans hadds₂, ⟨rfl, hcolumn⟩, ?_⟩
    rintro p column ⟨hpos, hcolumn⟩
    exact ⟨hpos, hasColumn_mono hadds₂.toPositionsGrow hcolumn⟩
  · rintro columns c' ⟨hadds, hcolumns⟩
    apply Ensures.pure
    refine ⟨hadds, ?_⟩
    have hpos : (c.counted false metricName).map (·.pos) = columns.map (·.1) := by
      rw [← List.forall₂_eq_eq_eq, List.forall₂_map_left_iff, List.forall₂_map_right_iff]
      exact hcolumns.imp fun _ _ hcolumn => hcolumn.1.symm
    have hsorted : columns.Pairwise fun a b => a.1 ≤ b.1 := by
      rw [← List.pairwise_map (R := (· ≤ ·)), ← hpos, h.counted]
      exact List.pairwise_le_range' 1
    rw [hsorted.insertionSort_eq, List.forall₂_map_right_iff]
    exact hcolumns.imp fun _ _ hcolumn => ⟨congrArg some hcolumn.1, hcolumn.2⟩

theorem labelColumns_columns {c : Catalog} (h : c.PositionsCompact) (metricName : String)
    (id : Bool) :
    Ensures (labelColumns metricName id) c fun columns c' =>
      AddsLabelKeys c c' ∧ List.Forall₂ (c'.HasColumn id) (c.counted false metricName) columns := by
  unfold labelColumns
  apply Ensures.bind
  refine (positionedColumns_columns h metricName id).mono ?_
  rintro columns c' ⟨hadds, hcolumns⟩
  apply Ensures.pure
  refine ⟨hadds, ?_⟩
  rw [List.forall₂_map_right_iff]
  exact hcolumns.imp fun _ _ hcolumn => hcolumn.2

/-- The columns after come behind the columns before. -/
theorem labelColumns_prefix {c c' c₁ c₂ : Catalog} (h : c.PositionsCompact)
    (h' : c'.PositionsCompact) (hgrow : PositionsGrow c c') {metricName : String} {id : Bool}
    {olds news : List String} (holds : (labelColumns metricName id).run c = .ok (olds, c₁))
    (hnews : (labelColumns metricName id).run c' = .ok (news, c₂)) : olds <+: news := by
  obtain ⟨hadds₁, hcolumns₁⟩ := labelColumns_columns h metricName id _ _ holds
  obtain ⟨hadds₂, hcolumns₂⟩ := labelColumns_columns h' metricName id _ _ hnews
  refine prefix_of_forall₂ ((hgrow.rows false).filter _) hcolumns₁ hcolumns₂ ?_
  intro p hp a b ha hb
  exact hasColumn_unique hadds₁.toPositionsGrow (hgrow.trans hadds₂.toPositionsGrow)
    (h.labelKey p ((mem_counted _ _ _ _).mp hp).1) ha hb

/-! ## The views -/

def viewSchema (id : Bool) : String := if id then "prom_metric" else "prom_series"

def fixedColumns (id : Bool) : List String :=
  if id then ["time", "value", "series_id", "labels"] else ["series_id", "labels"]

/-- The view of the metric has a column for each counted position, in order. -/
def ViewCurrent (c : Catalog) (metricName : String) (id : Bool) : Prop :=
  ∃ m, c.findMetric metricName = some m ∧ ∃ columns,
    List.Forall₂ (c.HasColumn id) (c.counted false metricName) columns ∧
      c.views (viewSchema id, m.tableName) = some (fixedColumns id ++ columns)

structure ReplacesView (c : Catalog) (metricName : String) (id : Bool) (c' : Catalog) : Prop
    extends PositionsGrow c c' where
  sameRows : ∀ isForExemplar, c'.positionRows isForExemplar = c.positionRows isForExemplar
  current : c'.ViewCurrent metricName id
  otherViews : ∀ view, view.1 ≠ viewSchema id → c'.views view = c.views view

theorem renamedColumn_prefix {olds news : List String} (h : renamedColumn olds news = none) :
    olds <+: news := by
  induction olds generalizing news with
  | nil => exact List.nil_prefix
  | cons old olds ih =>
    cases news with
    | nil => cases h
    | cons new news =>
      unfold renamedColumn at h
      split at h
      · rename_i heq
        rw [heq, List.prefix_cons_inj]
        exact ih h
      · cases h

theorem createOrReplaceView_extends (c : Catalog) (view : String × String)
    (columns : List ViewColumn) :
    Ensures (createOrReplaceView view columns) c fun _ c' =>
      c' = { c with targetList := assign c.targetList view (some columns) } ∧
        ∀ olds, c.views view = some olds → olds <+: columns.map (·.name) := by
  unfold createOrReplaceView
  apply Ensures.bind
  apply Ensures.get
  split
  · exact Ensures.throw
  split
  · exact Ensures.throw
  split
  · rename_i hnone
    split
    · exact Ensures.throw
    · refine Ensures.set ⟨rfl, fun olds holds => ?_⟩
      rw [hnone] at holds
      cases holds
  · rename_i olds hsome
    split
    · exact Ensures.throw
    · rename_i hrenamed
      split
      · exact Ensures.throw
      · refine Ensures.set ⟨rfl, fun olds' holds => ?_⟩
        rw [hsome] at holds
        cases holds
        exact renamedColumn_prefix hrenamed

/-- A view is replaced by one that begins with the same columns. -/
theorem positionsGrow_of_assign {c : Catalog} {view : String × String} {columns : List ViewColumn}
    (h : ∀ olds, c.views view = some olds → olds <+: columns.map (·.name)) :
    PositionsGrow c { c with targetList := assign c.targetList view (some columns) } := {
  PositionsGrow.refl c with
  views := fun other olds hold => by
    rw [views_assign]
    by_cases hother : other = view
    · subst hother
      exact ⟨_, assign_self _ _ _, h olds hold⟩
    · exact ⟨olds, (assign_of_ne hother _ _).trans hold, List.prefix_rfl⟩ }

theorem fixedColumns_names (id : Bool) (columns : List ViewColumn) :
    ((fixedColumns id).map ViewColumn.fixed ++ columns).map (·.name) =
      fixedColumns id ++ columns.map (·.name) := by
  cases id <;> rfl

theorem createOrReplaceView_replaces {c c₁ : Catalog} {metricName : String} {id : Bool} {m : Metric}
    {columns : List ViewColumn} (hadds : AddsLabelKeys c c₁)
    (hcolumns : List.Forall₂ (fun p column => column.pos = some p.pos ∧
      c₁.HasColumn id p column.name) (c.counted false metricName) columns)
    (hm : c₁.findMetric metricName = some m) :
    Ensures (createOrReplaceView (viewSchema id, m.tableName)
        ((fixedColumns id).map ViewColumn.fixed ++ columns)) c₁
      fun _ c' => ReplacesView c metricName id c' := by
  refine (createOrReplaceView_extends c₁ _ _).mono ?_
  rintro _ _ ⟨rfl, holds⟩
  have hcounted : c₁.counted false metricName = c.counted false metricName := by
    unfold counted
    rw [hadds.sameRows]
  have hnames : List.Forall₂ (c₁.HasColumn id) (c₁.counted false metricName)
      (columns.map (·.name)) := by
    rw [List.forall₂_map_right_iff, hcounted]
    exact hcolumns.imp fun _ _ hcolumn => hcolumn.2
  exact { hadds.toPositionsGrow.trans (positionsGrow_of_assign holds) with
    sameRows := hadds.sameRows
    current := ⟨m, hm, _, hnames, by
      rw [views_assign, assign_self, Option.map_some, fixedColumns_names]⟩
    otherViews := fun view hview => by
      have hne : view ≠ (viewSchema id, m.tableName) := by
        rintro rfl
        exact hview rfl
      rw [views_assign, assign_of_ne hne]
      unfold views
      rw [hadds.sameViews] }

theorem findMetricStrict_finds (c : Catalog) (metricName : String) :
    Ensures (findMetricStrict metricName) c fun m c' =>
      c' = c ∧ c.findMetric metricName = some m := by
  unfold findMetricStrict
  apply Ensures.bind
  apply Ensures.get
  split
  · rename_i m hm
    exact Ensures.pure ⟨rfl, hm⟩
  · exact Ensures.throw

theorem createSeriesView_replaces {c : Catalog} (h : c.PositionsCompact) (metricName : String) :
    Ensures (createSeriesView metricName) c fun _ c' => ReplacesView c metricName false c' := by
  unfold createSeriesView
  apply Ensures.bind
  refine (positionedColumns_columns h metricName false).mono ?_
  rintro labelValueCols c₁ ⟨hadds, hcolumns⟩
  apply Ensures.bind
  refine (findMetricStrict_finds c₁ metricName).mono ?_
  rintro m _ ⟨rfl, hm⟩
  apply Ensures.bind
  refine (requireDataSeries_same _ m.tableName).mono ?_
  rintro _ _ rfl
  exact createOrReplaceView_replaces hadds hcolumns hm

theorem createMetricView_replaces {c : Catalog} (h : c.PositionsCompact) (metricName : String) :
    Ensures (createMetricView metricName) c fun _ c' => ReplacesView c metricName true c' := by
  unfold createMetricView
  apply Ensures.bind
  refine (positionedColumns_columns h metricName true).mono ?_
  rintro labelValueCols c₁ ⟨hadds, hcolumns⟩
  apply Ensures.bind
  refine (findMetricStrict_finds c₁ metricName).mono ?_
  rintro m _ ⟨rfl, hm⟩
  apply Ensures.bind
  refine (requireRelation_same _ _).mono ?_
  rintro _ _ rfl
  apply Ensures.bind
  refine (requireDataSeries_same _ m.tableName).mono ?_
  rintro _ _ rfl
  exact createOrReplaceView_replaces hadds hcolumns hm

/-- Replacing one of the two views leaves the other current. -/
theorem ViewCurrent.of_replaces {c c' : Catalog} {metricName : String} {id : Bool}
    (h : c.ViewCurrent metricName id) (hreplaces : ReplacesView c metricName (!id) c') :
    c'.ViewCurrent metricName id := by
  obtain ⟨m, hm, columns, hcolumns, hview⟩ := h
  have hcounted : c'.counted false metricName = c.counted false metricName := by
    unfold counted
    rw [hreplaces.sameRows]
  have hother : viewSchema id ≠ viewSchema (!id) := by
    cases id <;> decide
  refine ⟨m, ?_, columns, ?_, ?_⟩
  · unfold findMetric at hm ⊢
    rw [hreplaces.metric]
    exact hm
  · rw [hcounted]
    exact hcolumns.imp fun _ _ => hasColumn_mono hreplaces.toPositionsGrow
  · rw [hreplaces.otherViews _ hother]
    exact hview

theorem createViewsFor_replaces {c : Catalog} (h : c.PositionsCompact) (metricName : String)
    (isForExemplar : Bool) (countNew : Nat) :
    Ensures (createViewsFor metricName isForExemplar countNew) c fun _ c' =>
      PositionsGrow c c' ∧ c'.PositionsCompact ∧
        (isForExemplar = false → 0 < countNew → ∀ id, c'.ViewCurrent metricName id) := by
  unfold createViewsFor
  split
  · apply Ensures.bind
    refine (createSeriesView_replaces h metricName).mono ?_
    intro _ c₁ hseries
    have h₁ := h.of_sameRows hseries.sameRows fun p _ lk hlk _ => hseries.labelKey lk hlk
    refine (createMetricView_replaces h₁ metricName).mono ?_
    intro _ c₂ hmetric
    have h₂ := h₁.of_sameRows hmetric.sameRows fun p _ lk hlk _ => hmetric.labelKey lk hlk
    refine ⟨hseries.toPositionsGrow.trans hmetric.toPositionsGrow, h₂, fun _ _ id => ?_⟩
    cases id with
    | false => exact hseries.current.of_replaces hmetric
    | true => exact hmetric.current
  · rename_i hnot
    apply Ensures.pure
    refine ⟨.refl c, h, fun hseries hcount => ?_⟩
    simp [hseries] at hnot
    omega

end Promscale.Catalog
