import Promscale.Catalog.Positions

/-!
# Label arrays

A label set is stored as the array of its label ids, each at the position of its key in
the metric, with 0 at the positions of other keys. An array is determined by the label set
and the catalog it was made in, and the catalog reads the label set back from it.
-/
namespace Promscale.Catalog

open Promscale.Lib

def nullMetricName {α : Type} : Sql α :=
  raise "null value in column \"metric_name\" of relation \"metric\" violates not-null constraint"
    "23502"

/-- The index of a row of `idx_val`, from the tables as the query found them if it can be. -/
def labelIdx (snapshot : Catalog) (metricName : Option String) (key : String) : Sql (Option Nat) :=
  match metricName with
  | none => nullMetricName
  | some metricName =>
    match snapshot.position false metricName key with
    | some pos => pure (some pos)
    | none => getOrCreateLabelKeyPos metricName key

def labelVal (snapshot : Catalog) (key value : String) : Sql Nat :=
  match snapshot.findLabel key value with
  | some l => pure l.id
  | none => getOrCreateLabelId key value

def idxVal (snapshot : Catalog) (metricName : Option String) (e : String × String) :
    Sql (Option Nat × Nat) := do
  let idx ← labelIdx snapshot metricName e.1
  let val ← labelVal snapshot e.1 e.2
  pure (idx, val)

/-- The array over `generate_series(1, max(idx))`, left joined with the rows. -/
def arrayOf (rows : List (Option Nat × Nat)) : List Nat :=
  match (rows.filterMap (·.1)).max? with
  | none => []
  | some top =>
    (List.range' 1 top).flatMap fun g =>
      match rows.filter fun r => r.1 = some g with
      | [] => [0]
      | found => found.map (·.2)

/-- `ORDER BY l.key`, which is `NULL` for a label that is not there yet. -/
def labelKeyBefore (c : Catalog) (a b : String × String) : Bool :=
  match (c.findLabel a.1 a.2).isSome, (c.findLabel b.1 b.2).isSome with
  | true, true => c.collate a.1 b.1
  | true, false => true
  | false, true => false
  | false, false => true

/-- The variant that takes a jsonb object; `js` are its members. -/
def getOrCreateLabelArray (js : List (String × String)) : Sql (List Nat) := do
  let c ← get
  let rows ← (js.insertionSort fun a b => labelKeyBefore c a b).mapM
    (idxVal c (js.lookup nameKey))
  pure (arrayOf rows)

/-- The variant that takes arrays of keys and values, here the array of their pairs. -/
def getOrCreateLabelArrayKv (metricName : String) (kvs : List (String × String)) :
    Sql (List Nat) := do
  let c ← get
  let rows ← (kvs.insertionSort fun a b => c.collate a.1 b.1).mapM (idxVal c (some metricName))
  pure (arrayOf rows)

/-- `ORDER BY kv.key, kv.value`. -/
def labelBefore (c : Catalog) (a b : String × String) : Bool :=
  if a.1 = b.1 then c.collate a.2 b.2 else c.collate a.1 b.1

structure LabelIds where
  pos : List Nat
  id : List Nat
  label : List (String × String)

/-- Positions and ids apart, for a client that makes the arrays itself. -/
def getOrCreateLabelIds (metricName metricTable : String) (kvs : List (String × String)) :
    Sql LabelIds := do
  let c ← get
  let sorted := kvs.insertionSort fun a b => labelBefore c a b
  let labelIds ← sorted.mapM fun kv => labelVal c kv.1 kv.2
  let knownPos := sorted.filterMap fun kv => c.position false metricName kv.1
  if sorted.length = knownPos.length then pure ⟨knownPos, labelIds, sorted⟩
  else do
    let poss ← getNewPosForKey metricName metricTable (sorted.map (·.1)) false
    pure ⟨poss, labelIds, sorted⟩

/-- The label ids, keys and values of an array. -/
def labelsInfo (c : Catalog) (labels : List Nat) : List Label :=
  labels.filterMap c.labelById

/-- `jsonb_object` keeps the last of the members with one key. -/
def jsonbObject : List (String × String) → List (String × String)
  | [] => []
  | e :: rest => if rest.any fun e' => e'.1 = e.1 then jsonbObject rest else e :: jsonbObject rest

/-- The members of the object, or `NULL` without a single label. -/
def jsonb (c : Catalog) (labels : List Nat) : Option (List (String × String)) :=
  match c.labelsInfo labels with
  | [] => none
  | infos => some (jsonbObject (infos.map fun l => (l.key, l.value)))

/-! ## Arrays of rows -/

theorem mem_arrayOf {rows : List (Option Nat × Nat)} {id : Nat} (h : id ∈ arrayOf rows) :
    id = 0 ∨ ∃ r ∈ rows, r.2 = id := by
  unfold arrayOf at h
  split at h
  · cases h
  · obtain ⟨g, -, hg⟩ := List.mem_flatMap.mp h
    split at hg
    · exact .inl (List.mem_singleton.mp hg)
    · obtain ⟨r, hr, rfl⟩ := List.mem_map.mp hg
      exact .inr ⟨r, (List.mem_filter.mp hr).1, rfl⟩

/-- The value at an index, 0 when no row has it. -/
def valAt (rows : List (Option Nat × Nat)) (g : Nat) : Nat :=
  match rows.find? fun r => r.1 = some g with
  | some r => r.2
  | none => 0

theorem filter_eq_find {rows : List (Option Nat × Nat)} (hnodup : (rows.map (·.1)).Nodup) (g : Nat) :
    (rows.filter fun r => r.1 = some g) = (rows.find? fun r => r.1 = some g).toList := by
  induction rows with
  | nil => rfl
  | cons r rest ih =>
    rw [List.map_cons, List.nodup_cons] at hnodup
    by_cases hr : r.1 = some g
    · rw [List.filter_cons_of_pos (by simpa using hr), List.find?_cons_of_pos (by simpa using hr)]
      have : (rest.filter fun r => r.1 = some g) = [] := by
        rw [List.filter_eq_nil_iff]
        intro r' hr' heq
        refine hnodup.1 (List.mem_map.mpr ⟨r', hr', ?_⟩)
        rw [hr]
        simpa using heq
      rw [this]
      rfl
    · rw [List.filter_cons_of_neg (by simpa using hr), List.find?_cons_of_neg (by simpa using hr)]
      exact ih hnodup.2

theorem arrayOf_eq_map {rows : List (Option Nat × Nat)} (hnodup : (rows.map (·.1)).Nodup)
    {top : Nat} (htop : (rows.filterMap (·.1)).max? = some top) :
    arrayOf rows = (List.range' 1 top).map (valAt rows) := by
  unfold arrayOf
  rw [htop]
  dsimp only
  rw [List.map_eq_flatMap]
  congr 1
  funext g
  rw [filter_eq_find hnodup]
  unfold valAt
  cases rows.find? fun r => r.1 = some g <;> rfl

theorem valAt_eq {rows : List (Option Nat × Nat)} (hnodup : (rows.map (·.1)).Nodup) {g id : Nat}
    (h : (some g, id) ∈ rows) : valAt rows g = id := by
  have hmem : (some g, id) ∈ rows.filter fun r => r.1 = some g := by
    rw [List.mem_filter]
    exact ⟨h, by simp⟩
  rw [filter_eq_find hnodup] at hmem
  unfold valAt
  rw [Option.mem_toList] at hmem
  rw [hmem]

theorem valAt_eq_zero {rows : List (Option Nat × Nat)} {g : Nat}
    (h : ∀ id, (some g, id) ∉ rows) : valAt rows g = 0 := by
  unfold valAt
  split
  · rename_i r hfind
    have hr := List.find?_some hfind
    simp only [decide_eq_true_eq] at hr
    have := List.mem_of_find?_eq_some hfind
    rw [← Prod.mk.eta (p := r), hr] at this
    exact absurd this (h r.2)
  · rfl

/-! ## What an array says -/

/-- `A` is the array of the label set `L` in a metric. -/
structure Encodes (c : Catalog) (metricName : String) (L : List (String × String))
    (A : List Nat) : Prop where
  at_position : ∀ k v, (k, v) ∈ L → ∃ pos id, 1 ≤ pos ∧ c.HasPosition metricName k pos ∧
    c.HasLabel id k v ∧ A[pos - 1]? = some id
  unset : ∀ i < A.length, (∀ k v, (k, v) ∈ L → ¬ c.HasPosition metricName k (i + 1)) →
    A[i]? = some 0
  /-- The array ends with the last position that is set. -/
  last : A = [] ∨ ∃ k v, (k, v) ∈ L ∧ c.HasPosition metricName k A.length

/-- The row of `idx_val` for a label. -/
def IsRow (c : Catalog) (metricName : String) (e : String × String) (r : Option Nat × Nat) : Prop :=
  ∃ pos, r.1 = some pos ∧ c.HasPosition metricName e.1 pos ∧ c.HasLabel r.2 e.1 e.2

/-- Labels of distinct keys get distinct indexes. -/
theorem rows_nodup {c : Catalog} (hwf : c.WellFormed) {metricName : String}
    {es : List (String × String)} {rows : List (Option Nat × Nat)}
    (hrows : List.Forall₂ (c.IsRow metricName) es rows) (hkeys : (es.map (·.1)).Nodup) :
    (rows.map (·.1)).Nodup := by
  induction hrows with
  | nil => exact .nil
  | cons hrow hrest ih =>
    rename_i e r es rows
    rw [List.map_cons, List.nodup_cons] at hkeys ⊢
    refine ⟨fun hmem => hkeys.1 ?_, ih hkeys.2⟩
    obtain ⟨r', hr', heq⟩ := List.mem_map.mp hmem
    obtain ⟨e', he', pos', hpos', hposition', -⟩ := exists_left hrest hr'
    obtain ⟨pos, hpos, hposition, -⟩ := hrow
    rw [hpos, hpos', Option.some_inj] at heq
    have hkey := hwf.posKey _ hposition' _ hposition rfl heq
    exact List.mem_map.mpr ⟨e', he', hkey⟩

theorem arrayOf_encodes {c : Catalog} (hwf : c.WellFormed) {metricName : String}
    {es : List (String × String)} {rows : List (Option Nat × Nat)}
    (hrows : List.Forall₂ (c.IsRow metricName) es rows) (hkeys : (es.map (·.1)).Nodup) :
    c.Encodes metricName es (arrayOf rows) := by
  have hnodup := rows_nodup hwf hrows hkeys
  cases hmax : (rows.filterMap (·.1)).max? with
  | none =>
    have hnil : rows = [] := by
      rw [List.max?_eq_none_iff] at hmax
      refine List.eq_nil_iff_forall_not_mem.mpr fun r hr => ?_
      obtain ⟨e, -, pos, hpos, -⟩ := exists_left hrows hr
      have : pos ∈ rows.filterMap (·.1) := List.mem_filterMap.mpr ⟨r, hr, hpos⟩
      rw [hmax] at this
      cases this
    subst hnil
    cases hrows
    exact ⟨by rintro k v ⟨⟩, by rintro i ⟨⟩, .inl rfl⟩
  | some top =>
    rw [arrayOf_eq_map hnodup hmax]
    rw [List.max?_eq_some_iff] at hmax
    obtain ⟨hmem, hle⟩ := hmax
    constructor
    · intro k v he
      obtain ⟨⟨idx, id⟩, hr, pos, hidx, hposition, hlabel⟩ := exists_right hrows he
      dsimp only at hidx hlabel
      subst hidx
      have hone := (hwf.posOne _ hposition).1
      have htop := hle pos (List.mem_filterMap.mpr ⟨_, hr, rfl⟩)
      refine ⟨pos, id, hone, hposition, hlabel, ?_⟩
      dsimp only at hone
      rw [List.getElem?_map, List.getElem?_range' (by omega), Option.map_some,
        show 1 + 1 * (pos - 1) = pos by omega, valAt_eq hnodup hr]
    · intro i hi hunset
      rw [List.length_map, List.length_range'] at hi
      rw [List.getElem?_map, List.getElem?_range' hi, Option.map_some,
        show 1 + 1 * i = i + 1 by omega, valAt_eq_zero]
      intro id hr
      obtain ⟨e, he, pos, hpos, hposition, -⟩ := exists_left hrows hr
      cases hpos
      exact hunset e.1 e.2 he hposition
    · right
      obtain ⟨r, hr, hidx⟩ := List.mem_filterMap.mp hmem
      obtain ⟨e, he, pos, hpos, hposition, -⟩ := exists_left hrows hr
      rw [hidx, Option.some_inj] at hpos
      subst hpos
      refine ⟨e.1, e.2, he, ?_⟩
      rwa [List.length_map, List.length_range']

theorem hasPosition_unique {c : Catalog} {metricName key : String} {pos pos' : Nat}
    (h : c.HasPosition metricName key pos) (h' : c.HasPosition metricName key pos') : pos = pos' := by
  have := c.labelKeyPosition.eq_of_conflict h h' (by simp [LabelKeyPosition.constraints])
  cases this
  rfl

theorem hasLabel_unique {c : Catalog} {key value : String} {id id' : Nat}
    (h : c.HasLabel id key value) (h' : c.HasLabel id' key value) : id = id' := by
  have := c.label.eq_of_conflict h h' (by simp [Label.constraints])
  cases this
  rfl

theorem hasLabel_inj {c : Catalog} {key value key' value' : String} {id : Nat}
    (h : c.HasLabel id key value) (h' : c.HasLabel id key' value') : key = key' ∧ value = value' := by
  have := c.label.eq_of_conflict h h' (by simp [Label.constraints])
  cases this
  exact ⟨rfl, rfl⟩

theorem hasLabel_pos {c : Catalog} {key value : String} {id : Nat} (h : c.HasLabel id key value) :
    0 < id := by
  simpa [Label.constraints] using c.label.checked _ h

namespace Encodes

variable {c : Catalog} {metricName : String} {L : List (String × String)} {A : List Nat}

theorem perm {L' : List (String × String)} (h : c.Encodes metricName L A) (hperm : L.Perm L') :
    c.Encodes metricName L' A where
  at_position k v he := h.at_position k v (hperm.mem_iff.mpr he)
  unset i hi hunset := h.unset i hi fun k v he => hunset k v (hperm.mem_iff.mp he)
  last := by
    rcases h.last with hnil | ⟨k, v, he, hpos⟩
    · exact .inl hnil
    · exact .inr ⟨k, v, hperm.mem_iff.mp he, hpos⟩

/-- A position of the label set lies inside the array. -/
theorem position_le (h : c.Encodes metricName L A) {k v : String} {pos : Nat} (he : (k, v) ∈ L)
    (hpos : c.HasPosition metricName k pos) : pos ≤ A.length := by
  obtain ⟨pos', id, hone, hpos', -, hget⟩ := h.at_position k v he
  cases hasPosition_unique hpos hpos'
  have := (List.getElem?_eq_some_iff.mp hget).1
  omega

theorem length_le {A' : List Nat} (h : c.Encodes metricName L A) (h' : c.Encodes metricName L A') :
    A.length ≤ A'.length := by
  rcases h.last with rfl | ⟨k, v, he, hpos⟩
  · exact Nat.zero_le _
  · exact h'.position_le he hpos

/-- A catalog gives a label set one array. -/
theorem unique {A' : List Nat} (h : c.Encodes metricName L A) (h' : c.Encodes metricName L A') :
    A = A' := by
  have hlength := Nat.le_antisymm (h.length_le h') (h'.length_le h)
  apply List.ext_getElem?
  intro i
  by_cases hi : i < A.length
  · by_cases hset : ∃ k v, (k, v) ∈ L ∧ c.HasPosition metricName k (i + 1)
    · obtain ⟨k, v, he, hpos⟩ := hset
      obtain ⟨pos, id, -, hpos₁, hlabel, hget⟩ := h.at_position k v he
      obtain ⟨pos', id', -, hpos₂, hlabel', hget'⟩ := h'.at_position k v he
      cases hasPosition_unique hpos hpos₁
      cases hasPosition_unique hpos hpos₂
      cases hasLabel_unique hlabel hlabel'
      exact hget.trans hget'.symm
    · have hunset : ∀ k v, (k, v) ∈ L → ¬ c.HasPosition metricName k (i + 1) :=
        fun k v he hpos => hset ⟨k, v, he, hpos⟩
      exact (h.unset i hi hunset).trans (h'.unset i (by omega) hunset).symm
  · rw [List.getElem?_eq_none (by omega), List.getElem?_eq_none (by omega)]

/-- An element of the array other than 0 is the id of the label with that position's key. -/
theorem label_at (h : c.Encodes metricName L A) {i id : Nat} (hget : A[i]? = some id)
    (hne : id ≠ 0) :
    ∃ k v, (k, v) ∈ L ∧ c.HasPosition metricName k (i + 1) ∧ c.HasLabel id k v := by
  by_cases hset : ∃ k v, (k, v) ∈ L ∧ c.HasPosition metricName k (i + 1)
  · obtain ⟨k, v, he, hpos⟩ := hset
    obtain ⟨pos', id', -, hpos', hlabel, hget'⟩ := h.at_position k v he
    cases hasPosition_unique hpos hpos'
    rw [Nat.add_sub_cancel, hget, Option.some_inj] at hget'
    subst hget'
    exact ⟨k, v, he, hpos, hlabel⟩
  · have hi := (List.getElem?_eq_some_iff.mp hget).1
    have hzero := h.unset i hi fun k v he hpos => hset ⟨k, v, he, hpos⟩
    rw [hget, Option.some_inj] at hzero
    exact absurd hzero hne

theorem label_of_mem (h : c.Encodes metricName L A) {id : Nat} (hid : id ∈ A) (hne : id ≠ 0) :
    ∃ k v, (k, v) ∈ L ∧ c.HasLabel id k v := by
  obtain ⟨i, hget⟩ := List.getElem?_of_mem hid
  obtain ⟨k, v, he, -, hlabel⟩ := h.label_at hget hne
  exact ⟨k, v, he, hlabel⟩

/-- The array stays the label set's as long as its labels and positions stay. -/
theorem mono {c' : Catalog} (h : c.Encodes metricName L A)
    (hposition : ∀ k pos, c.HasPosition metricName k pos → c'.HasPosition metricName k pos)
    (hlabel : ∀ k v id, (k, v) ∈ L → c.HasLabel id k v → c'.HasLabel id k v) :
    c'.Encodes metricName L A where
  at_position k v he := by
    obtain ⟨pos, id, hone, hpos, hl, hget⟩ := h.at_position k v he
    exact ⟨pos, id, hone, hposition k pos hpos, hlabel k v id he hl, hget⟩
  unset i hi hunset := h.unset i hi fun k v he hpos => hunset k v he (hposition k _ hpos)
  last := by
    rcases h.last with hnil | ⟨k, v, he, hpos⟩
    · exact .inl hnil
    · exact .inr ⟨k, v, he, hposition k _ hpos⟩

end Encodes

/-! ## What the functions return -/

theorem isRow_mono {c c' : Catalog} (h : Extends c c') {metricName : String}
    {e : String × String} {r : Option Nat × Nat} (hrow : c.IsRow metricName e r) :
    c'.IsRow metricName e r := by
  obtain ⟨pos, hpos, hposition, hlabel⟩ := hrow
  exact ⟨pos, hpos, h.position _ hposition, h.label _ hlabel⟩

theorem labelIdx_grows {snapshot c : Catalog} (hsnapshot : Grows snapshot c) (metricName key : String) :
    Ensures (labelIdx snapshot (some metricName) key) c fun idx c' =>
      Grows c c' ∧ ∃ pos, idx = some pos ∧ c'.HasPosition metricName key pos := by
  unfold labelIdx
  dsimp only
  split
  · rename_i pos hpos
    apply Ensures.pure
    refine ⟨.refl c, pos, rfl, ?_⟩
    exact hsnapshot.extends_.position _ ((position_eq_some_iff _ _ _ _).mp hpos)
  · exact getOrCreateLabelKeyPos_grows c metricName key

theorem labelVal_grows {snapshot c : Catalog} (hsnapshot : Grows snapshot c) (key value : String) :
    Ensures (labelVal snapshot key value) c fun val c' =>
      Grows c c' ∧ c'.HasLabel val key value := by
  unfold labelVal
  split
  · rename_i l hfind
    apply Ensures.pure
    exact ⟨.refl c, hsnapshot.extends_.label _ (hasLabel_of_find hfind)⟩
  · exact getOrCreateLabelId_grows c key value

theorem idxVal_grows {snapshot c : Catalog} (hsnapshot : Grows snapshot c) (metricName : String)
    (e : String × String) :
    Ensures (idxVal snapshot (some metricName) e) c fun r c' =>
      Grows c c' ∧ c'.IsRow metricName e r := by
  unfold idxVal
  apply Ensures.bind
  refine (labelIdx_grows hsnapshot metricName e.1).mono ?_
  rintro idx c₁ ⟨hgrows₁, pos, hidx, hpos⟩
  apply Ensures.bind
  refine (labelVal_grows (hsnapshot.trans hgrows₁) e.1 e.2).mono ?_
  rintro val c₂ ⟨hgrows₂, hlabel⟩
  apply Ensures.pure
  exact ⟨hgrows₁.trans hgrows₂, pos, hidx, hgrows₂.extends_.position _ hpos, hlabel⟩

theorem idxVals_grows (c : Catalog) (metricName : String) (es : List (String × String)) :
    Ensures (es.mapM (idxVal c (some metricName))) c fun rows c' =>
      Grows c c' ∧ List.Forall₂ (c'.IsRow metricName) es rows := by
  refine Ensures.mapM_forall₂ (Grows c) (fun t => t.IsRow metricName) (.refl c) ?_
  intro e _ t hgrows
  refine (idxVal_grows hgrows metricName e).mono ?_
  rintro r t' ⟨hgrows', hrow⟩
  exact ⟨hgrows.trans hgrows', hrow, fun _ _ => isRow_mono hgrows'.extends_⟩

/-- What the two variants do, once the rows are in order. -/
structure ReturnsArray (c : Catalog) (metricName : String) (L : List (String × String)) (A : List Nat)
    (c' : Catalog) : Prop where
  grows : Grows c c'
  label : ∀ id ∈ A, id ≠ 0 → ∃ l ∈ c'.label.rows, l.id = id
  encodes : c.WellFormed → (L.map (·.1)).Nodup → c'.Encodes metricName L A

theorem returnsArray_of_rows {c c' : Catalog} {metricName : String} {L es : List (String × String)}
    {rows : List (Option Nat × Nat)} (hperm : es.Perm L) (hgrows : Grows c c')
    (hrows : List.Forall₂ (c'.IsRow metricName) es rows) :
    ReturnsArray c metricName L (arrayOf rows) c' where
  grows := hgrows
  label id hid hne := by
    rcases mem_arrayOf hid with hzero | ⟨r, hr, rfl⟩
    · exact absurd hzero hne
    · obtain ⟨e, -, -, -, -, hlabel⟩ := exists_left hrows hr
      exact ⟨_, hlabel, rfl⟩
  encodes hwf hkeys := by
    have hkeys' : (es.map (·.1)).Nodup := (hperm.map _).nodup_iff.mpr hkeys
    exact (arrayOf_encodes (hgrows.wellFormed hwf) hrows hkeys').perm hperm

theorem getOrCreateLabelArrayKv_returns (c : Catalog) (metricName : String)
    (kvs : List (String × String)) :
    Ensures (getOrCreateLabelArrayKv metricName kvs) c (ReturnsArray c metricName kvs) := by
  unfold getOrCreateLabelArrayKv
  apply Ensures.bind
  apply Ensures.get
  apply Ensures.bind
  refine (idxVals_grows c metricName _).mono ?_
  rintro rows c' ⟨hgrows, hrows⟩
  apply Ensures.pure
  exact returnsArray_of_rows (List.perm_insertionSort _ _) hgrows hrows

theorem getOrCreateLabelArray_returns (c : Catalog) {metricName : String}
    {js : List (String × String)} (hname : js.lookup nameKey = some metricName) :
    Ensures (getOrCreateLabelArray js) c (ReturnsArray c metricName js) := by
  unfold getOrCreateLabelArray
  apply Ensures.bind
  apply Ensures.get
  rw [hname]
  apply Ensures.bind
  refine (idxVals_grows c metricName _).mono ?_
  rintro rows c' ⟨hgrows, hrows⟩
  apply Ensures.pure
  exact returnsArray_of_rows (List.perm_insertionSort _ _) hgrows hrows

/-- Without a metric name only the empty object has an array. -/
theorem getOrCreateLabelArray_nameless (c : Catalog) {js : List (String × String)}
    (hname : js.lookup nameKey = none) :
    Ensures (getOrCreateLabelArray js) c fun A c' => c' = c ∧ A = [] ∧ js = [] := by
  unfold getOrCreateLabelArray
  apply Ensures.bind
  apply Ensures.get
  rw [hname]
  apply Ensures.bind
  cases hsorted : js.insertionSort fun a b => labelKeyBefore c a b = true with
  | nil =>
    rw [List.mapM_nil]
    apply Ensures.pure
    apply Ensures.pure
    have hperm := List.perm_insertionSort (fun a b => labelKeyBefore c a b = true) js
    rw [hsorted] at hperm
    exact ⟨rfl, rfl, hperm.nil_eq.symm⟩
  | cons e rest =>
    rw [List.mapM_cons]
    apply Ensures.bind
    unfold idxVal
    apply Ensures.bind
    exact Ensures.throw

theorem getOrCreateLabelIds_returns (c : Catalog) (metricName metricTable : String)
    (kvs : List (String × String)) :
    Ensures (getOrCreateLabelIds metricName metricTable kvs) c fun found c' =>
      Grows c c' ∧ found.label.Perm kvs ∧
        List.Forall₂ (fun kv pos => c'.HasPosition metricName kv.1 pos) found.label found.pos ∧
        List.Forall₂ (fun kv id => c'.HasLabel id kv.1 kv.2) found.label found.id := by
  unfold getOrCreateLabelIds
  apply Ensures.bind
  apply Ensures.get
  dsimp only
  apply Ensures.bind
  have hperm : (kvs.insertionSort fun a b => labelBefore c a b = true).Perm kvs :=
    List.perm_insertionSort _ _
  generalize kvs.insertionSort (fun a b => labelBefore c a b = true) = sorted at hperm ⊢
  refine (Ensures.mapM_forall₂ (Grows c) (fun t kv id => t.HasLabel id kv.1 kv.2)
    (.refl c) ?_).mono ?_
  · intro kv _ t hgrows
    refine (labelVal_grows hgrows kv.1 kv.2).mono ?_
    rintro id t' ⟨hgrows', hlabel⟩
    exact ⟨hgrows.trans hgrows', hlabel, fun _ _ h => hgrows'.extends_.label _ h⟩
  · rintro ids c₁ ⟨hgrows₁, hids⟩
    split
    · rename_i hall
      apply Ensures.pure
      refine ⟨hgrows₁, hperm, (forall₂_of_filterMap_length hall).imp fun kv pos hpos => ?_, hids⟩
      exact hgrows₁.extends_.position _ ((position_eq_some_iff _ _ _ _).mp hpos)
    · apply Ensures.bind
      refine (getNewPosForKey_grows c₁ metricName metricTable _).mono ?_
      rintro poss c₂ ⟨hgrows₂, hposs⟩
      apply Ensures.pure
      refine ⟨hgrows₁.trans hgrows₂, hperm, List.forall₂_map_left_iff.mp hposs, ?_⟩
      exact hids.imp fun kv id h => hgrows₂.extends_.label _ h

/-! ## Once everything is there -/

theorem lookup_of_mem {L : List (String × String)} (hkeys : (L.map (·.1)).Nodup) {k v : String}
    (he : (k, v) ∈ L) : L.lookup k = some v := by
  induction L with
  | nil => cases he
  | cons e rest ih =>
    rw [List.map_cons, List.nodup_cons] at hkeys
    rcases List.mem_cons.mp he with rfl | he
    · exact List.lookup_cons_self
    · have hne : k ≠ e.1 := by
        rintro rfl
        exact hkeys.1 (List.mem_map.mpr ⟨_, he, rfl⟩)
      rw [List.lookup_cons, beq_false_of_ne hne]
      exact ih hkeys.2 he

theorem idxVal_returns {c : Catalog} {metricName : String} {L : List (String × String)}
    {A : List Nat} (h : c.Encodes metricName L A) {e : String × String} (he : e ∈ L) :
    ∃ r, (idxVal c (some metricName) e).run c = .ok (r, c) := by
  obtain ⟨pos, id, -, hpos, hlabel, -⟩ := h.at_position e.1 e.2 he
  have hlabel' := (findLabel_eq_some_iff c e.1 e.2 ⟨id, e.1, e.2⟩).mpr ⟨hlabel, rfl, rfl⟩
  unfold idxVal labelIdx labelVal
  simp only [(position_eq_some_iff _ _ _ _).mpr hpos, hlabel']
  exact ⟨_, rfl⟩

/-- A label set whose array is there is found again, and nothing is created. -/
theorem getOrCreateLabelArrayKv_finds {c : Catalog} (hwf : c.WellFormed) {metricName : String}
    {kvs : List (String × String)} {A : List Nat} (hkeys : (kvs.map (·.1)).Nodup)
    (h : c.Encodes metricName kvs A) :
    (getOrCreateLabelArrayKv metricName kvs).run c = .ok (A, c) := by
  obtain ⟨rows, hrows⟩ : ∃ rows, ((kvs.insertionSort fun a b => c.collate a.1 b.1).mapM
      (idxVal c (some metricName))).run c = .ok (rows, c) :=
    mapM_returns fun e he => idxVal_returns h ((List.mem_insertionSort _).mp he)
  have hrun : (getOrCreateLabelArrayKv metricName kvs).run c = .ok (arrayOf rows, c) := by
    unfold getOrCreateLabelArrayKv
    rw [StateT.run_bind]
    change (((kvs.insertionSort fun a b => c.collate a.1 b.1).mapM (idxVal c (some metricName)) >>=
      fun rows => pure (arrayOf rows) : Sql (List Nat))).run c = _
    rw [StateT.run_bind, hrows]
    rfl
  have hreturns := getOrCreateLabelArrayKv_returns c metricName kvs _ c hrun
  rw [hrun, (hreturns.encodes hwf hkeys).unique h]

theorem getOrCreateLabelArray_finds {c : Catalog} (hwf : c.WellFormed) {metricName : String}
    {js : List (String × String)} {A : List Nat} (hkeys : (js.map (·.1)).Nodup)
    (hname : (nameKey, metricName) ∈ js) (h : c.Encodes metricName js A) :
    (getOrCreateLabelArray js).run c = .ok (A, c) := by
  have hlookup := lookup_of_mem hkeys hname
  obtain ⟨rows, hrows⟩ : ∃ rows, ((js.insertionSort fun a b => labelKeyBefore c a b).mapM
      (idxVal c (some metricName))).run c = .ok (rows, c) :=
    mapM_returns fun e he => idxVal_returns h ((List.mem_insertionSort _).mp he)
  have hrun : (getOrCreateLabelArray js).run c = .ok (arrayOf rows, c) := by
    unfold getOrCreateLabelArray
    rw [hlookup, StateT.run_bind]
    change (((js.insertionSort fun a b => labelKeyBefore c a b).mapM (idxVal c (some metricName)) >>=
      fun rows => pure (arrayOf rows) : Sql (List Nat))).run c = _
    rw [StateT.run_bind, hrows]
    rfl
  have hreturns := getOrCreateLabelArray_returns c hlookup _ c hrun
  rw [hrun, (hreturns.encodes hwf hkeys).unique h]

/-! ## Reading an array -/

theorem jsonbObject_of_nodup {es : List (String × String)} (hkeys : (es.map (·.1)).Nodup) :
    jsonbObject es = es := by
  induction es with
  | nil => rfl
  | cons e rest ih =>
    rw [List.map_cons, List.nodup_cons] at hkeys
    have hlast : (rest.any fun e' => decide (e'.1 = e.1)) = false := by
      rw [List.any_eq_false]
      intro e' he' heq
      exact hkeys.1 (List.mem_map.mpr ⟨e', he', of_decide_eq_true heq⟩)
    rw [jsonbObject, hlast, if_neg Bool.false_ne_true, ih hkeys.2]

namespace Encodes

variable {c : Catalog} {metricName : String} {L : List (String × String)} {A : List Nat}

theorem infos_nodup (h : c.Encodes metricName L A) :
    (((c.labelsInfo A).map fun l => (l.key, l.value)).map (·.1)).Nodup := by
  rw [List.map_map, labelsInfo, List.Nodup, List.pairwise_map, List.pairwise_filterMap,
    List.pairwise_iff_getElem]
  intro i j hi hj hij l hl l' hl' heq
  rw [labelById_eq_some_iff] at hl hl'
  have key_at : ∀ (n : Nat) (hn : n < A.length) (l : Label), l ∈ c.label.rows → l.id = A[n] →
      c.HasPosition metricName l.key (n + 1) := by
    intro n hn l hl hid
    have hne : A[n] ≠ 0 := by
      have := hasLabel_pos (show c.HasLabel l.id l.key l.value from hl)
      omega
    obtain ⟨k, v, -, hpos, hlabel⟩ := h.label_at (List.getElem?_eq_getElem hn) hne
    rw [← hid] at hlabel
    rwa [(hasLabel_inj hl hlabel).1]
  have hpos := key_at i hi l hl.1 hl.2
  have hpos' := key_at j hj l' hl'.1 hl'.2
  dsimp only [Function.comp_apply] at heq
  rw [heq] at hpos
  have := hasPosition_unique hpos hpos'
  omega

theorem mem_infos_iff (h : c.Encodes metricName L A) (k v : String) :
    (k, v) ∈ (c.labelsInfo A).map (fun l => (l.key, l.value)) ↔ (k, v) ∈ L := by
  rw [labelsInfo, List.mem_map]
  constructor
  · rintro ⟨l, hl, heq⟩
    cases heq
    obtain ⟨id, hid, hfind⟩ := List.mem_filterMap.mp hl
    obtain ⟨hmem, rfl⟩ := (labelById_eq_some_iff c id l).mp hfind
    have hlabel : c.HasLabel l.id l.key l.value := hmem
    obtain ⟨k, v, he, hlabel'⟩ := h.label_of_mem hid (Nat.ne_of_gt (hasLabel_pos hlabel))
    obtain ⟨hk, hv⟩ := hasLabel_inj hlabel hlabel'
    rwa [hk, hv]
  · intro he
    obtain ⟨pos, id, -, -, hlabel, hget⟩ := h.at_position k v he
    refine ⟨⟨id, k, v⟩, List.mem_filterMap.mpr ⟨id, List.mem_of_getElem? hget, ?_⟩, rfl⟩
    exact (labelById_eq_some_iff c id _).mpr ⟨hlabel, rfl⟩

/-- The array gives back its label set. -/
theorem jsonb_eq (h : c.Encodes metricName L A) (hkeys : (L.map (·.1)).Nodup) (hne : L ≠ []) :
    ∃ members, c.jsonb A = some members ∧ members.Perm L := by
  have hnodup := h.infos_nodup
  have hperm : ((c.labelsInfo A).map fun l => (l.key, l.value)).Perm L := by
    refine (List.perm_ext_iff_of_nodup (.of_map _ hnodup) (.of_map _ hkeys)).mpr ?_
    rintro ⟨k, v⟩
    exact h.mem_infos_iff k v
  refine ⟨(c.labelsInfo A).map fun l => (l.key, l.value), ?_, hperm⟩
  unfold jsonb
  split
  · rename_i hnil
    rw [hnil] at hperm
    exact absurd hperm.nil_eq.symm hne
  · rw [jsonbObject_of_nodup hnodup]

end Encodes

end Promscale.Catalog
