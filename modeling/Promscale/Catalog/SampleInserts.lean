import Mathlib
import Promscale.Lib.Subtransaction
import Promscale.Lib.Table

/-!
# Inserting samples

`insert_metric_row` in `001-base.sql` inserts a batch into the table of a metric: first without
`ON CONFLICT`, which is cheaper, and when that violates the unique index once more with it.
-/
namespace Promscale.Catalog

open Promscale.Lib

/-- A row of a metric's table. -/
structure DataRow (V : Type) where
  time : Int
  value : V
  seriesId : Int
  deriving DecidableEq, Repr

variable {V : Type}

namespace DataRow

/-- The columns of the unique index. -/
def key (r : DataRow V) : Int × Int := (r.seriesId, r.time)

/-- `CREATE UNIQUE INDEX .. (series_id, time) INCLUDE (value)` -/
def constraints (V : Type) : Constraints (DataRow V) where
  conflict a b := decide (a.key = b.key)
  symm a b := by
    rw [decide_eq_decide]
    exact eq_comm
  check _ := true

end DataRow

abbrev MetricTable (V : Type) := Table (DataRow V) (DataRow.constraints V)

/-- A row of `unnest`; an array that is shorter than the others gives NULL. -/
structure ArrayRow (V : Type) where
  t : Option Int
  v : Option V
  s : Option Int
  deriving DecidableEq, Repr

/-- The condition names of the errors that an insert can raise. -/
inductive Violation where
  | notNull (column : String)
  | unique
  deriving DecidableEq, Repr

/-- `unnest($1, $2, $3) a(t,v,s)` -/
def unnest (timeArray : List (Option Int)) (valueArray : List (Option V))
    (seriesIdArray : List (Option Int)) : List (ArrayRow V) :=
  (List.range (max timeArray.length (max valueArray.length seriesIdArray.length))).map fun i =>
    ⟨timeArray[i]?.join, valueArray[i]?.join, seriesIdArray[i]?.join⟩

/-- NULL comes last. -/
def nullsLast : Option Int → WithTop Int
  | none => ⊤
  | some n => n

namespace ArrayRow

/-- The order of `ORDER BY s,t`. -/
def sortKey (row : ArrayRow V) : WithTop Int ×ₗ WithTop Int :=
  toLex (nullsLast row.s, nullsLast row.t)

def toDataRow (row : ArrayRow V) : Except Violation (DataRow V) :=
  match row.t, row.v, row.s with
  | some time, some value, some seriesId => .ok ⟨time, value, seriesId⟩
  | none, _, _ => .error (.notNull "time")
  | _, none, _ => .error (.notNull "value")
  | _, _, none => .error (.notNull "series_id")

def ofDataRow (r : DataRow V) : ArrayRow V := ⟨some r.time, some r.value, some r.seriesId⟩

@[simp] theorem toDataRow_ofDataRow (r : DataRow V) : (ofDataRow r).toDataRow = .ok r := rfl

theorem eq_ofDataRow {row : ArrayRow V} {r : DataRow V} (h : row.toDataRow = .ok r) :
    row = ofDataRow r := by
  match row, h with
  | ⟨some _, some _, some _⟩, h =>
    cases h
    rfl

theorem ofDataRow_injective : Function.Injective (ofDataRow : DataRow V → ArrayRow V) := by
  intro a b h
  cases a
  cases b
  cases h
  rfl

theorem sortKey_ofDataRow {a b : DataRow V} :
    (ofDataRow a).sortKey = (ofDataRow b).sortKey ↔ a.key = b.key := by
  unfold sortKey ofDataRow DataRow.key nullsLast
  rw [toLex_inj, Prod.mk.injEq, Prod.mk.injEq, WithTop.coe_inj, WithTop.coe_inj]

end ArrayRow

/-- An order of some rows that sorts them; rows of one key may come in any order. -/
structure OrderBy {α κ : Type} [LE κ] (key : α → κ) (rows : List α) where
  result : List α
  perm : result.Perm rows
  sorted : result.Pairwise fun a b => key a ≤ key b

/-- By merging; rows of one key stay as they come. -/
def OrderBy.mergeSort {α κ : Type} [LinearOrder κ] (key : α → κ) (rows : List α) :
    OrderBy key rows where
  result := rows.mergeSort fun a b => decide (key a ≤ key b)
  perm := List.mergeSort_perm _ _
  sorted := by
    have hsorted := List.pairwise_mergeSort
      (fun a b c hab hbc => decide_eq_true
        ((of_decide_eq_true hab : key a ≤ key b).trans (of_decide_eq_true hbc)))
      (fun a b => by simpa using le_total (key a) (key b)) rows
    exact hsorted.imp of_decide_eq_true

/-- When the keys are distinct there is one such order. -/
theorem OrderBy.unique {α κ : Type} [PartialOrder κ] {key : α → κ} {rows : List α}
    (o o' : OrderBy key rows)
    (hinj : ∀ a ∈ rows, ∀ b ∈ rows, key a = key b → a = b) : o.result = o'.result :=
  List.Perm.eq_of_pairwise (fun a b ha hb hab hba =>
    hinj a (o.perm.mem_iff.mp ha) b (o'.perm.mem_iff.mp hb) (le_antisymm hab hba))
    o.sorted o'.sorted (o.perm.trans o'.perm.symm)

/-- `INSERT INTO .. SELECT`, with or without `ON CONFLICT DO NOTHING`; an error leaves the rows
in the table that came before it. -/
def insertRows (doNothing : Bool) : List (ArrayRow V) → Nat → Attempt (MetricTable V) Violation Nat
  | [], numRows, t => (.ok numRows, t)
  | row :: rest, numRows, t =>
    match row.toDataRow with
    | .error e => (.error e, t)
    | .ok r =>
      match t.insert r rfl with
      | some t' => insertRows doNothing rest (numRows + 1) t'
      | none => if doNothing then insertRows doNothing rest numRows t else (.error .unique, t)

/-- `insert_metric_row`; each statement sorts the rows by itself. -/
def insertMetricRow {timeArray : List (Option Int)} {valueArray : List (Option V)}
    {seriesIdArray : List (Option Int)}
    (fast slow : OrderBy ArrayRow.sortKey (unnest timeArray valueArray seriesIdArray)) :
    Attempt (MetricTable V) Violation Nat :=
  Attempt.block (insertRows false fast.result 0) (fun e => e = .unique)
    (insertRows true slow.result 0)

/-! ## One statement -/

/-- Whatever is inserted without `ON CONFLICT` is inserted with it. -/
theorem insertRows_of_ok {rows : List (ArrayRow V)} {n m : Nat} {t t' : MetricTable V}
    (h : insertRows false rows n t = (.ok m, t')) :
    insertRows true rows n t = (.ok m, t') ∧
      ∃ data, rows = data.map ArrayRow.ofDataRow ∧ t'.rows = t.rows ++ data := by
  induction rows generalizing n t with
  | nil =>
    cases h
    exact ⟨rfl, [], rfl, (List.append_nil _).symm⟩
  | cons row rest ih =>
    unfold insertRows at h ⊢
    match hrow : row.toDataRow with
    | .error e =>
      rw [hrow] at h
      cases h
    | .ok r =>
      rw [hrow] at h
      match hinsert : t.insert r rfl with
      | none =>
        simp only [hinsert] at h
        cases h
      | some next =>
        simp only [hinsert] at h ⊢
        obtain ⟨hrun, data, rfl, hrows⟩ := ih h
        refine ⟨hrun, r :: data, ?_, ?_⟩
        · rw [List.map_cons, ← ArrayRow.eq_ofDataRow hrow]
        · rw [hrows, ((Table.insert_eq_some_iff _ _ _ _).mp hinsert).2, List.append_assoc]
          rfl

/-- What an insert of some samples leaves, with `ON CONFLICT DO NOTHING`. -/
structure Inserts (t : MetricTable V) (data : List (DataRow V)) (count : Nat)
    (t' : MetricTable V) : Prop where
  keeps : t.rows <+: t'.rows
  stored : ∀ r ∈ t'.rows, r ∈ t.rows ∨ r ∈ data
  keys : ∀ r ∈ data, ∃ r' ∈ t'.rows, r'.key = r.key
  count_eq : t'.rows.length = t.rows.length + count

theorem insertRows_data (data : List (DataRow V)) (n : Nat) (t : MetricTable V) :
    ∃ count t', insertRows true (data.map ArrayRow.ofDataRow) n t = (.ok (n + count), t') ∧
      Inserts t data count t' := by
  induction data generalizing n t with
  | nil => exact ⟨0, t, rfl, List.prefix_refl _, fun r hr => .inl hr, by simp, rfl⟩
  | cons r rest ih =>
    rw [List.map_cons, insertRows, ArrayRow.toDataRow_ofDataRow]
    match hinsert : t.insert r rfl with
    | some next =>
      obtain ⟨-, hrows⟩ := (Table.insert_eq_some_iff _ _ _ _).mp hinsert
      obtain ⟨count, t', hrun, hinserts⟩ := ih (n + 1) next
      refine ⟨count + 1, t', ?_, ?_, ?_, ?_, ?_⟩
      · simp only [hinsert, hrun]
        rw [Nat.add_assoc, Nat.add_comm 1]
      · exact (hrows ▸ List.prefix_append _ _ : t.rows <+: next.rows).trans hinserts.keeps
      · intro r' hr'
        have h := hinserts.stored r' hr'
        simp only [hrows, List.mem_append, List.mem_cons] at h ⊢
        tauto
      · refine List.forall_mem_cons.mpr ⟨⟨r, ?_, rfl⟩, hinserts.keys⟩
        exact hinserts.keeps.subset (by simp [hrows])
      · rw [hinserts.count_eq, hrows, List.length_append, List.length_singleton]
        omega
    | none =>
      obtain ⟨r', hr', hconflict⟩ := (Table.insert_eq_none_iff _ _ _).mp hinsert
      obtain ⟨count, t', hrun, hinserts⟩ := ih n t
      refine ⟨count, t', ?_, hinserts.keeps, ?_, ?_, hinserts.count_eq⟩
      · simp only [hinsert, hrun, if_true]
      · exact fun r' hr' => (hinserts.stored r' hr').imp id (List.mem_cons_of_mem r)
      · exact List.forall_mem_cons.mpr ⟨⟨r', hinserts.keeps.subset hr', of_decide_eq_true hconflict⟩,
          hinserts.keys⟩

/-- Samples of stored keys are not inserted. -/
theorem insertRows_stored {data : List (DataRow V)} {n : Nat} {t : MetricTable V}
    (h : ∀ r ∈ data, ∃ r' ∈ t.rows, r'.key = r.key) :
    insertRows true (data.map ArrayRow.ofDataRow) n t = (.ok n, t) := by
  induction data with
  | nil => rfl
  | cons r rest ih =>
    obtain ⟨⟨r', hr', hkey⟩, hrest⟩ := List.forall_mem_cons.mp h
    have hinsert : t.insert r rfl = none :=
      (Table.insert_eq_none_iff _ _ _).mpr ⟨r', hr', decide_eq_true hkey⟩
    rw [List.map_cons, insertRows, ArrayRow.toDataRow_ofDataRow]
    simp only [hinsert, if_true]
    exact ih hrest

/-- Samples without NULLs only ever violate the unique index. -/
theorem insertRows_error {data : List (DataRow V)} {n : Nat} {t t' : MetricTable V}
    {e : Violation} (h : insertRows false (data.map ArrayRow.ofDataRow) n t = (.error e, t')) :
    e = .unique := by
  induction data generalizing n t with
  | nil => cases h
  | cons r rest ih =>
    rw [List.map_cons, insertRows, ArrayRow.toDataRow_ofDataRow] at h
    match hinsert : t.insert r rfl with
    | some next =>
      simp only [hinsert] at h
      exact ih h
    | none =>
      simp only [hinsert] at h
      cases h
      rfl

/-! ## The function -/

/-- The columns of a batch give its rows back. -/
theorem unnest_columns (batch : List (DataRow V)) :
    unnest (batch.map fun r => some r.time) (batch.map fun r => some r.value)
      (batch.map fun r => some r.seriesId) = batch.map ArrayRow.ofDataRow := by
  apply List.ext_getElem
  · simp [unnest]
  · intro i hi hi'
    have hi : i < batch.length := by simpa using hi'
    simp [unnest, ArrayRow.ofDataRow, hi]

theorem OrderBy.exists_data {batch : List (DataRow V)} {rows : List (ArrayRow V)}
    (o : OrderBy ArrayRow.sortKey rows) (h : rows = batch.map ArrayRow.ofDataRow) :
    ∃ data : List (DataRow V), o.result = data.map ArrayRow.ofDataRow ∧ data.Perm batch := by
  have hrange : o.result ∈ Set.range (List.map ArrayRow.ofDataRow) := by
    rw [Set.range_list_map]
    intro row hrow
    obtain ⟨r, -, hr⟩ := List.mem_map.mp (h ▸ o.perm.mem_iff.mp hrow)
    exact ⟨r, hr⟩
  obtain ⟨data, hdata⟩ := hrange
  refine ⟨data, hdata.symm, ?_⟩
  rw [← List.map_perm_map_iff ArrayRow.ofDataRow_injective, hdata, ← h]
  exact o.perm

theorem nodup_keys (t : MetricTable V) : (t.rows.map DataRow.key).Nodup := by
  rw [List.Nodup, List.pairwise_map]
  exact t.unique.imp fun h => of_decide_eq_false h

/-- The count is the number of new keys. -/
theorem Inserts.count_keys {t t' : MetricTable V} {data : List (DataRow V)} {count : Nat}
    (h : Inserts t data count t') :
    count = ((data.map DataRow.key).toFinset \ (t.rows.map DataRow.key).toFinset).card := by
  have hkeys : (t'.rows.map DataRow.key).toFinset =
      (t.rows.map DataRow.key).toFinset ∪ (data.map DataRow.key).toFinset := by
    ext key
    simp only [List.mem_toFinset, Finset.mem_union, List.mem_map]
    constructor
    · rintro ⟨r, hr, rfl⟩
      exact (h.stored r hr).imp (fun hr => ⟨r, hr, rfl⟩) fun hr => ⟨r, hr, rfl⟩
    · rintro (⟨r, hr, rfl⟩ | ⟨r, hr, rfl⟩)
      · exact ⟨r, h.keeps.subset hr, rfl⟩
      · exact h.keys r hr
  have hcard := congrArg Finset.card hkeys
  rw [← Finset.union_sdiff_self_eq_union,
    Finset.card_union_of_disjoint Finset.disjoint_sdiff, List.toFinset_card_of_nodup (nodup_keys t'),
    List.toFinset_card_of_nodup (nodup_keys t), List.length_map, List.length_map, h.count_eq] at hcard
  omega

section Function
variable {batch : List (DataRow V)} {timeArray : List (Option Int)}
  {valueArray : List (Option V)} {seriesIdArray : List (Option Int)}

/-- The fast path never shows: the function ends as its statement with `ON CONFLICT` alone. -/
theorem insertMetricRow_eq
    (fast slow : OrderBy ArrayRow.sortKey (unnest timeArray valueArray seriesIdArray))
    (hbatch : unnest timeArray valueArray seriesIdArray = batch.map ArrayRow.ofDataRow)
    (t : MetricTable V) :
    insertMetricRow fast slow t = insertRows true slow.result 0 t := by
  obtain ⟨data, hdata, -⟩ := fast.exists_data hbatch
  refine Attempt.block_eq_handler (fun count t' hok => ?_) fun e t' herror => ?_
  · obtain ⟨hrun, data, hrows, happend⟩ := insertRows_of_ok hok
    -- all keys are new and distinct, so that both statements sort alike
    have hsame : slow.result = fast.result := by
      refine slow.unique fast fun a ha b hb hab => ?_
      rw [← fast.perm.mem_iff, hrows] at ha hb
      obtain ⟨x, hx, rfl⟩ := List.mem_map.mp ha
      obtain ⟨y, hy, rfl⟩ := List.mem_map.mp hb
      have hmem : ∀ r ∈ data, r ∈ t'.rows := fun r hr => happend ▸ List.mem_append_right _ hr
      rw [t'.eq_of_conflict (hmem x hx) (hmem y hy)
        (decide_eq_true (ArrayRow.sortKey_ofDataRow.mp hab))]
    rw [hsame]
    exact hrun
  · rw [hdata] at herror
    exact decide_eq_true (insertRows_error herror)

end Function

/-- `insert_metric_row` ends in the state in which its statement with `ON CONFLICT DO NOTHING`
alone ends: stored samples stay, one sample is stored for each key of the batch, the count is
that of the new keys, and the same batch again changes nothing. -/
theorem insertMetricRow_doesNothing_on_conflict (t : MetricTable V) (batch : List (DataRow V))
    (fast slow : OrderBy ArrayRow.sortKey (unnest (batch.map fun r => some r.time)
      (batch.map fun r => some r.value) (batch.map fun r => some r.seriesId))) :
    ∃ count t', insertMetricRow fast slow t = (.ok count, t') ∧
      insertRows true slow.result 0 t = (.ok count, t') ∧
      t.rows <+: t'.rows ∧ (∀ r ∈ t'.rows, r ∈ t.rows ∨ r ∈ batch) ∧
      (∀ r ∈ batch, ∃! stored, stored ∈ t'.rows ∧ stored.key = r.key) ∧
      count = ((batch.map DataRow.key).toFinset \ (t.rows.map DataRow.key).toFinset).card ∧
      ∀ fast' slow' : OrderBy ArrayRow.sortKey (unnest (batch.map fun r => some r.time)
        (batch.map fun r => some r.value) (batch.map fun r => some r.seriesId)),
        insertMetricRow fast' slow' t' = (.ok 0, t') := by
  have hbatch := unnest_columns batch
  obtain ⟨data, hdata, hperm⟩ := slow.exists_data hbatch
  obtain ⟨count, t', hrun, hinserts⟩ := insertRows_data data 0 t
  rw [← hdata, Nat.zero_add] at hrun
  have hkeys : ∀ r ∈ batch, ∃ stored ∈ t'.rows, stored.key = r.key :=
    fun r hr => hinserts.keys r (hperm.mem_iff.mpr hr)
  refine ⟨count, t', (insertMetricRow_eq fast slow hbatch t).trans hrun, hrun, hinserts.keeps,
    fun r hr => (hinserts.stored r hr).imp id hperm.mem_iff.mp, fun r hr => ?_, ?_,
    fun fast' slow' => ?_⟩
  · obtain ⟨stored, hstored, hkey⟩ := hkeys r hr
    refine ⟨stored, ⟨hstored, hkey⟩, fun other hother => ?_⟩
    exact t'.eq_of_conflict hother.1 hstored (decide_eq_true (hother.2.trans hkey.symm))
  · rw [hinserts.count_keys, List.toFinset_eq_of_perm _ _ (hperm.map DataRow.key)]
  · obtain ⟨data', hdata', hperm'⟩ := slow'.exists_data hbatch
    rw [insertMetricRow_eq fast' slow' hbatch t', hdata']
    exact insertRows_stored fun r hr => hkeys r (hperm'.mem_iff.mp hr)

/-- A table with one sample. -/
def oneStored : MetricTable Int :=
  ⟨[⟨0, 1, 7⟩], List.pairwise_singleton _ _, fun _ _ => rfl⟩

/-- An earlier sample of the series, and the stored one once more with another value. -/
def twoSamples : List (DataRow Int) := [⟨0, 2, 7⟩, ⟨-10, 3, 7⟩]

theorem insertMetricRow_doesNothing_twoSamples :
    let order := OrderBy.mergeSort ArrayRow.sortKey (unnest (twoSamples.map fun r => some r.time)
      (twoSamples.map fun r => some r.value) (twoSamples.map fun r => some r.seriesId))
    ∃ t', insertMetricRow order order oneStored = (.ok 1, t') ∧
      oneStored.rows <+: t'.rows ∧ insertMetricRow order order t' = (.ok 0, t') := by
  intro order
  obtain ⟨count, t', hrun, -, hkept, -, -, hcount, hagain⟩ :=
    insertMetricRow_doesNothing_on_conflict oneStored twoSamples order order
  have hone : count = 1 := by
    rw [hcount]
    decide
  subst hone
  exact ⟨t', hrun, hkept, hagain order order⟩

end Promscale.Catalog
