import Promscale.Lib.Kleene
import Promscale.Catalog.SeriesIdentity

/-!
# Matchers

The operators that compare the label array of a series with labels a user gives, as
`idempotent/003-matcher-functions.sql` has them. All but `eq` agree with the label set of the
array; `eq` compares lengths and so takes every 0 in the array for a label.
-/
namespace Promscale.Catalog

open Promscale.Lib

/-! ## Arrays of integers -/

/-- `pg_catalog.@>` -/
def contains (xs ys : List Int) : Bool := ys.all fun y => y ∈ xs

/-- `pg_catalog.&&` -/
def overlaps (xs ys : List Int) : Bool := ys.any fun y => y ∈ xs

/-- `array_length(.., 1)`, which is `NULL` for an empty array. -/
def arrayLength (xs : List Int) : Option Nat :=
  if xs = [] then none else some xs.length

def intArray (labels : List Nat) : List Int := labels.map Int.ofNat

/-! ## The functions -/

/-- A jsonb object all of whose values are strings. -/
structure StringObject where
  members : List (String × String)
  keys_nodup : (members.map (·.1)).Nodup

/-- `- '__name__'` -/
def StringObject.withoutName (J : StringObject) : List (String × String) :=
  J.members.filter fun e => e.1 ≠ nameKey

/-- -1 indicates no such label. -/
def idOrUnknown : Option Label → Int
  | some l => l.id
  | none => -1

def matcher (c : Catalog) (labels : StringObject) : List Int :=
  labels.withoutName.flatMap fun e =>
    (c.label.leftJoin fun l => l.key = e.1 && l.value = e.2).map idOrUnknown

/-- `eq(label_array, matcher_positive)` -/
def eqMatcher (labels1 : List Nat) (matchers : List Int) : Option Bool :=
  Kleene.and
    (do
      let length ← arrayLength (intArray labels1)
      let count ← arrayLength matchers
      pure (decide (length = count + 1)))
    (some (contains (intArray labels1) matchers))

/-- `eq(label_array, jsonb)` -/
def eqJson (c : Catalog) (labels : List Nat) (jsonLabels : StringObject) : Option Bool :=
  Kleene.and
    ((arrayLength (intArray labels)).map fun length =>
      decide (length = jsonLabels.withoutName.length + 1))
    (some (contains (intArray labels) (c.matcher jsonLabels)))

/-- `label_array @> jsonb` -/
def labelContains (c : Catalog) (labels : List Nat) (jsonLabels : StringObject) : Bool :=
  contains (intArray labels) (c.matcher jsonLabels)

/-- `label_array ? matcher_positive` -/
def labelMatch (labels : List Nat) (matchers : List Int) : Bool :=
  overlaps (intArray labels) matchers

/-- `label_array ? matcher_negative` -/
def labelMatchNegative (labels : List Nat) (matchers : List Int) : Bool :=
  !overlaps (intArray labels) matchers

/-- The ids of the labels of a key whose values meet a condition. -/
def labelFindKey (c : Catalog) (keyToMatch : String) (p : String → Bool) : List Int :=
  (c.label.rows.filter fun l => l.key = keyToMatch && p l.value).map fun l => l.id

section
-- whether a text matches a regular expression
variable (regexp : String → String → Bool)

def labelFindKeyEqual (c : Catalog) (keyToMatch pat : String) : List Int :=
  c.labelFindKey keyToMatch fun value => value = pat

def labelFindKeyNotEqual (c : Catalog) (keyToMatch pat : String) : List Int :=
  c.labelFindKey keyToMatch fun value => value = pat

def labelFindKeyRegex (c : Catalog) (keyToMatch pat : String) : List Int :=
  c.labelFindKey keyToMatch fun value => regexp value pat

def labelFindKeyNotRegex (c : Catalog) (keyToMatch pat : String) : List Int :=
  c.labelFindKey keyToMatch fun value => regexp value pat

/-- A key and the text it is compared with; the jsonb of a text gives the text back. -/
structure TagOp where
  tagKey : String
  value : String
  deriving DecidableEq, Repr

/-- `label_array ? (key == value)` -/
def matchEquals (c : Catalog) (labels : List Nat) (op : TagOp) : Bool :=
  overlaps (intArray labels) (c.labelFindKeyEqual op.tagKey op.value)

/-- `label_array ? (key !== value)` -/
def matchNotEquals (c : Catalog) (labels : List Nat) (op : TagOp) : Bool :=
  !overlaps (intArray labels) (c.labelFindKeyNotEqual op.tagKey op.value)

/-- `label_array ? (key ==~ pattern)` -/
def matchRegexpMatches (c : Catalog) (labels : List Nat) (op : TagOp) : Bool :=
  overlaps (intArray labels) (c.labelFindKeyRegex regexp op.tagKey op.value)

/-- `label_array ? (key !=~ pattern)` -/
def matchRegexpNotMatches (c : Catalog) (labels : List Nat) (op : TagOp) : Bool :=
  !overlaps (intArray labels) (c.labelFindKeyNotRegex regexp op.tagKey op.value)

end

/-! ## The label set of an array -/

/-- An element of the array is the id of the label. -/
def Shows (c : Catalog) (labels : List Nat) (k v : String) : Prop :=
  ∃ id ∈ labels, c.HasLabel id k v

/-- The labels whose ids the array has are those of the label set. -/
def HasLabelSet (c : Catalog) (labels : List Nat) (L : LabelSet) : Prop :=
  ∀ k v, (k, v) ∈ L.labels ↔ c.Shows labels k v

theorem Encodes.hasLabelSet {c : Catalog} {metricName : String} {L : LabelSet} {A : List Nat}
    (h : c.Encodes metricName L.labels A) : c.HasLabelSet A L := by
  intro k v
  constructor
  · intro he
    obtain ⟨pos, id, -, -, hlabel, hget⟩ := h.at_position k v he
    exact ⟨id, List.mem_of_getElem? hget, hlabel⟩
  · rintro ⟨id, hid, hlabel⟩
    obtain ⟨k', v', he, hlabel'⟩ := h.label_of_mem hid (Nat.ne_of_gt (hasLabel_pos hlabel))
    obtain ⟨rfl, rfl⟩ := hasLabel_inj hlabel hlabel'
    exact he

/-- The series made for a label set has it, and keeps it while its labels stay. -/
theorem series_hasLabelSet {c : Catalog} (hwf : c.WellFormed) {L : LabelSet} {call : SeriesCall}
    (hcall : call.IsFor c L) {id : Nat} {c' : Catalog} (hrun : call.run.run c = .ok (id, c')) :
    ∃ T labels, c'.HasSeries T id labels ∧ ∀ more : List Op,
      (∀ op ∈ more, ∀ scan, op ≠ .dropMetric L.metricName scan) →
        LabelsSurvive c' (more.foldl step c') L → (more.foldl step c').HasLabelSet labels L := by
  have h := call.run_returned hwf hcall id c' hrun
  obtain ⟨T, labels, hencodes, hseries⟩ := h.hasSeries
  refine ⟨T, labels, hseries, fun more hmore hsurvive => ?_⟩
  exact (run_encodes h.wellFormed hencodes hmore hsurvive).hasLabelSet

theorem mem_intArray {labels : List Nat} {id : Nat} : (id : Int) ∈ intArray labels ↔ id ∈ labels := by
  rw [intArray, List.mem_map]
  constructor
  · rintro ⟨id', hid', heq⟩
    rwa [← Int.ofNat.inj heq]
  · exact fun hid => ⟨id, hid, rfl⟩

theorem unknown_not_mem {labels : List Nat} : (-1 : Int) ∉ intArray labels := by
  simp [intArray]

theorem leftJoin_label (c : Catalog) (e : String × String) :
    (c.label.leftJoin fun l => l.key = e.1 && l.value = e.2) = [c.findLabel e.1 e.2] := by
  cases hfind : c.findLabel e.1 e.2 with
  | none =>
    have hrows := List.find?_eq_none.mp hfind
    have hnone : (c.label.rows.filter fun l => l.key = e.1 && l.value = e.2) = [] :=
      List.filter_eq_nil_iff.mpr hrows
    rw [Table.leftJoin, hnone]
  | some l =>
    obtain ⟨hl, hkey, hvalue⟩ := (findLabel_eq_some_iff c e.1 e.2 l).mp hfind
    refine c.label.leftJoin_eq_some hl (by simp [hkey, hvalue]) ?_
    intro x y hx hy
    simp only [Bool.and_eq_true, decide_eq_true_eq] at hx hy
    simp [Label.constraints, hx, hy]

theorem matcher_eq (c : Catalog) (J : StringObject) :
    c.matcher J = J.withoutName.map fun e => idOrUnknown (c.findLabel e.1 e.2) := by
  unfold matcher
  induction J.withoutName with
  | nil => rfl
  | cons e rest ih => rw [List.flatMap_cons, leftJoin_label, ih, List.map_cons, List.map_nil,
      List.map_cons, List.singleton_append]

/-- The id of a label is in the array when the array shows the label; that of an unknown one
never is. -/
theorem idOrUnknown_mem (c : Catalog) (labels : List Nat) (k v : String) :
    idOrUnknown (c.findLabel k v) ∈ intArray labels ↔ c.Shows labels k v := by
  cases hfind : c.findLabel k v with
  | none =>
    refine iff_of_false unknown_not_mem ?_
    rintro ⟨id, -, hlabel⟩
    have := (findLabel_eq_some_iff c k v _).mpr ⟨hlabel, rfl, rfl⟩
    rw [hfind] at this
    cases this
  | some l =>
    have hlabel := hasLabel_of_find hfind
    rw [idOrUnknown, mem_intArray]
    constructor
    · exact fun hid => ⟨l.id, hid, hlabel⟩
    · rintro ⟨id, hid, hlabel'⟩
      rwa [hasLabel_unique hlabel hlabel']

theorem contains_matcher (c : Catalog) (labels : List Nat) (J : StringObject) :
    contains (intArray labels) (c.matcher J) = true ↔
      ∀ e ∈ J.withoutName, c.Shows labels e.1 e.2 := by
  simp [contains, matcher_eq, idOrUnknown_mem]

theorem overlaps_matcher (c : Catalog) (labels : List Nat) (J : StringObject) :
    overlaps (intArray labels) (c.matcher J) = true ↔
      ∃ e ∈ J.withoutName, c.Shows labels e.1 e.2 := by
  simp [overlaps, matcher_eq, idOrUnknown_mem]

theorem overlaps_labelFindKey (c : Catalog) (labels : List Nat) (k : String) (p : String → Bool) :
    overlaps (intArray labels) (c.labelFindKey k p) = true ↔
      ∃ v, c.Shows labels k v ∧ p v = true := by
  unfold overlaps labelFindKey
  rw [List.any_eq_true]
  constructor
  · rintro ⟨_, hmem, hid⟩
    obtain ⟨l, hl, rfl⟩ := List.mem_map.mp hmem
    obtain ⟨hrow, hl⟩ := List.mem_filter.mp hl
    simp only [Bool.and_eq_true, decide_eq_true_eq] at hl hid
    obtain ⟨rfl, hp⟩ := hl
    exact ⟨l.value, ⟨l.id, mem_intArray.mp hid, hrow⟩, hp⟩
  · rintro ⟨v, ⟨id, hid, hlabel⟩, hp⟩
    refine ⟨id, List.mem_map.mpr ⟨⟨id, k, v⟩, List.mem_filter.mpr ⟨hlabel, by simp [hp]⟩, rfl⟩, ?_⟩
    exact decide_eq_true (mem_intArray.mpr hid)

theorem HasLabelSet.lookup_iff {c : Catalog} {labels : List Nat} {L : LabelSet}
    (h : c.HasLabelSet labels L) (k v : String) :
    c.Shows labels k v ↔ L.labels.lookup k = some v := by
  rw [← h k v, L.lookup_iff]

/-- Matching on the ids of an array agrees with matching on the map of its labels, whether or
not the keys and values looked for were ever stored. -/
theorem matchers_agree (regexp : String → String → Bool) {c : Catalog} {labels : List Nat}
    {L : LabelSet} (h : c.HasLabelSet labels L) :
    (∀ J, c.labelContains labels J = true ↔
      ∀ k v, (k, v) ∈ J.members → k ≠ nameKey → L.labels.lookup k = some v) ∧
    (∀ J, labelMatch labels (c.matcher J) = true ↔
      ∃ k v, (k, v) ∈ J.members ∧ k ≠ nameKey ∧ L.labels.lookup k = some v) ∧
    (∀ k v, c.matchEquals labels ⟨k, v⟩ = true ↔ L.labels.lookup k = some v) ∧
    (∀ k p, c.matchRegexpMatches regexp labels ⟨k, p⟩ = true ↔
      ∃ v, L.labels.lookup k = some v ∧ regexp v p = true) ∧
    (∀ matchers, labelMatchNegative labels matchers = !labelMatch labels matchers) ∧
    (∀ op, c.matchNotEquals labels op = !c.matchEquals labels op) ∧
    (∀ op, c.matchRegexpNotMatches regexp labels op = !c.matchRegexpMatches regexp labels op) := by
  refine ⟨fun J => ?_, fun J => ?_, fun k v => ?_, fun k p => ?_, fun _ => rfl, fun _ => rfl,
    fun _ => rfl⟩
  · rw [labelContains, contains_matcher]
    simp only [StringObject.withoutName, List.mem_filter, decide_eq_true_eq, h.lookup_iff]
    exact ⟨fun hall k v he hk => hall (k, v) ⟨he, hk⟩, fun hall e he => hall e.1 e.2 he.1 he.2⟩
  · rw [labelMatch, overlaps_matcher]
    simp only [StringObject.withoutName, List.mem_filter, decide_eq_true_eq, h.lookup_iff]
    constructor
    · rintro ⟨e, ⟨he, hk⟩, hlookup⟩
      exact ⟨e.1, e.2, he, hk, hlookup⟩
    · rintro ⟨k, v, he, hk, hlookup⟩
      exact ⟨(k, v), ⟨he, hk⟩, hlookup⟩
  · rw [matchEquals, labelFindKeyEqual, overlaps_labelFindKey]
    simp [h.lookup_iff]
  · rw [matchRegexpMatches, labelFindKeyRegex, overlaps_labelFindKey]
    simp only [h.lookup_iff]

/-! ## Equality -/

/-- The label sets are equal but for `__name__`. -/
def SameLabels (L : LabelSet) (J : StringObject) : Prop :=
  ∀ k v, k ≠ nameKey → ((k, v) ∈ L.labels ↔ (k, v) ∈ J.members)

def LabelSet.withoutName (L : LabelSet) : List (String × String) :=
  L.labels.filter fun e => e.1 ≠ nameKey

theorem LabelSet.withoutName_nodup (L : LabelSet) : L.withoutName.Nodup :=
  (List.Nodup.of_map _ L.keys_nodup).filter _

theorem StringObject.withoutName_nodup (J : StringObject) : J.withoutName.Nodup :=
  (List.Nodup.of_map _ J.keys_nodup).filter _

/-- `__name__` is one of the labels. -/
theorem LabelSet.length_eq (L : LabelSet) : L.labels.length = L.withoutName.length + 1 := by
  have hsplit := List.length_eq_countP_add_countP (fun e => decide (e.1 ≠ nameKey)) (l := L.labels)
  have hone : L.labels.countP (fun e => decide (e.1 = nameKey)) = 1 := by
    have hname : nameKey ∈ L.labels.map (·.1) := List.mem_map.mpr ⟨_, L.named, rfl⟩
    have hcount := List.count_eq_one_of_mem L.keys_nodup hname
    rw [List.count, List.countP_map] at hcount
    rw [← hcount]
    rfl
  simp only [ne_eq, decide_not, Bool.not_eq_true', decide_eq_false_iff_not, not_not] at hsplit
  rw [hone, List.countP_eq_length_filter] at hsplit
  simpa [LabelSet.withoutName] using hsplit

theorem sameLabels_iff (L : LabelSet) (J : StringObject) :
    SameLabels L J ↔ ∀ e, e ∈ L.withoutName ↔ e ∈ J.withoutName := by
  unfold SameLabels LabelSet.withoutName StringObject.withoutName
  constructor
  · intro hsame e
    simp only [List.mem_filter, decide_eq_true_eq]
    exact and_congr_left fun hk => hsame e.1 e.2 hk
  · intro hsame k v hk
    have := hsame (k, v)
    simpa [hk] using this

namespace HasLabelSet

variable {c : Catalog} {labels : List Nat} {L : LabelSet}

/-- Every label has an element of the array to itself. -/
theorem length_le (h : c.HasLabelSet labels L) : L.labels.length ≤ labels.length := by
  have hnodup : L.labels.Nodup := .of_map _ L.keys_nodup
  have hsubset : L.labels ⊆ (c.labelsInfo labels).map fun l => (l.key, l.value) := by
    rintro ⟨k, v⟩ he
    obtain ⟨id, hid, hlabel⟩ := (h k v).mp he
    refine List.mem_map.mpr ⟨⟨id, k, v⟩, List.mem_filterMap.mpr ⟨id, hid, ?_⟩, rfl⟩
    exact (labelById_eq_some_iff c id _).mpr ⟨hlabel, rfl⟩
  have hle := (List.subperm_of_subset hnodup hsubset).length_le
  rw [List.length_map] at hle
  exact Nat.le_trans hle (List.length_filterMap_le _ _)

theorem contains_iff (h : c.HasLabelSet labels L) (J : StringObject) :
    contains (intArray labels) (c.matcher J) = true ↔ J.withoutName ⊆ L.withoutName := by
  have hname : ∀ e ∈ J.withoutName, e.1 ≠ nameKey := fun e he => by
    simpa using (List.mem_filter.mp he).2
  rw [contains_matcher]
  constructor
  · intro hshows e he
    exact List.mem_filter.mpr ⟨(h e.1 e.2).mpr (hshows e he), by simpa using hname e he⟩
  · intro hsubset e he
    exact (h e.1 e.2).mp (List.mem_filter.mp (hsubset he)).1

/-- What is compared: the lengths and the ids. The lengths leave no room for labels beside
those of the object, nor for elements of the array beside labels. -/
theorem compared_iff (h : c.HasLabelSet labels L) (J : StringObject) :
    (labels.length = J.withoutName.length + 1 ∧ J.withoutName ⊆ L.withoutName) ↔
      labels.length = L.labels.length ∧ SameLabels L J := by
  have hle := h.length_le
  rw [L.length_eq] at hle ⊢
  rw [sameLabels_iff]
  constructor
  · rintro ⟨hlength, hsubset⟩
    have hsubperm := List.subperm_of_subset J.withoutName_nodup hsubset
    have hperm : J.withoutName.Perm L.withoutName :=
      hsubperm.perm_of_length_le (by omega)
    exact ⟨by rw [hlength, hperm.length_eq], fun e => hperm.mem_iff.symm⟩
  · rintro ⟨hlength, hsame⟩
    have hperm : L.withoutName.Perm J.withoutName :=
      (List.perm_ext_iff_of_nodup L.withoutName_nodup J.withoutName_nodup).mpr hsame
    exact ⟨by rw [hlength, hperm.length_eq], fun e he => (hsame e).mpr he⟩

theorem arrayLength_eq (h : c.HasLabelSet labels L) :
    arrayLength (intArray labels) = some labels.length := by
  have hle := h.length_le
  rw [L.length_eq] at hle
  unfold arrayLength intArray
  rw [if_neg, List.length_map]
  intro hnil
  rw [List.map_eq_nil_iff] at hnil
  rw [hnil] at hle
  simp at hle

theorem eqJson_iff (h : c.HasLabelSet labels L) (J : StringObject) :
    c.eqJson labels J = some true ↔ labels.length = L.labels.length ∧ SameLabels L J := by
  rw [← h.compared_iff J, ← h.contains_iff J, eqJson, h.arrayLength_eq, Kleene.and_eq_true_iff]
  simp

/-- An empty matcher has no length, so nothing is equal to it. -/
theorem eqMatcher_iff (h : c.HasLabelSet labels L) (J : StringObject) :
    eqMatcher labels (c.matcher J) = some true ↔
      J.withoutName ≠ [] ∧ labels.length = L.labels.length ∧ SameLabels L J := by
  rw [← h.compared_iff J, ← h.contains_iff J, eqMatcher, h.arrayLength_eq, Kleene.and_eq_true_iff,
    matcher_eq]
  cases hJ : J.withoutName with
  | nil => simp [arrayLength]
  | cons e rest => simp [arrayLength]

end HasLabelSet

/-- The elements of the array of a label set are its labels and the gaps. -/
theorem Encodes.length_eq_iff {c : Catalog} {metricName : String} {L : LabelSet} {A : List Nat}
    (h : c.Encodes metricName L.labels A) : A.length = L.labels.length ↔ 0 ∉ A := by
  have hinfos : (c.labelsInfo A).length = L.labels.length := by
    have hperm : ((c.labelsInfo A).map fun l => (l.key, l.value)).Perm L.labels := by
      refine (List.perm_ext_iff_of_nodup (.of_map _ h.infos_nodup) (.of_map _ L.keys_nodup)).mpr ?_
      exact fun e => h.mem_infos_iff e.1 e.2
    rw [← hperm.length_eq, List.length_map]
  have hsome : ∀ id ∈ A, (c.labelById id).isSome = true ↔ id ≠ 0 := by
    intro id hid
    constructor
    · rintro hsome rfl
      obtain ⟨l, hl⟩ := Option.isSome_iff_exists.mp hsome
      obtain ⟨hrow, hzero⟩ := (labelById_eq_some_iff c 0 l).mp hl
      exact absurd hzero (Nat.ne_of_gt (hasLabel_pos (show c.HasLabel l.id l.key l.value from hrow)))
    · intro hne
      obtain ⟨k, v, -, hlabel⟩ := h.label_of_mem hid hne
      rw [(labelById_eq_some_iff c id _).mpr ⟨hlabel, rfl⟩]
      rfl
  rw [← hinfos, labelsInfo, eq_comm, List.filterMap_length_eq_length]
  constructor
  · exact fun hall hzero => (hsome 0 hzero).mp (hall 0 hzero) rfl
  · intro hzero id hid
    refine (hsome id hid).mpr ?_
    rintro rfl
    exact hzero hid

/-- `eq` finds a series equal to its own labels exactly when its array has no element beside its
labels, which is no 0; through a matcher there must be a label beside `__name__` too. On other
labels it is right. -/
theorem eq_decides_iff {c : Catalog} {labels : List Nat} {L : LabelSet}
    (h : c.HasLabelSet labels L) (J : StringObject) :
    ((c.eqJson labels J = some true ↔ SameLabels L J) ↔
      labels.length = L.labels.length ∨ ¬ SameLabels L J) ∧
    ((eqMatcher labels (c.matcher J) = some true ↔ SameLabels L J) ↔
      labels.length = L.labels.length ∧ J.withoutName ≠ [] ∨ ¬ SameLabels L J) ∧
    ∀ metricName, c.Encodes metricName L.labels labels →
      (labels.length = L.labels.length ↔ 0 ∉ labels) := by
  refine ⟨?_, ?_, fun _ hencodes => hencodes.length_eq_iff⟩
  · rw [h.eqJson_iff J]
    by_cases hsame : SameLabels L J <;> simp [hsame]
  · rw [h.eqMatcher_iff J]
    by_cases hsame : SameLabels L J <;> simp [hsame, and_comm]

/-! ## A series with a gap -/

def bLabels : LabelSet where
  labels := [("__name__", "cpu"), ("b", "2")]
  keys_nodup := by decide
  metricName := "cpu"
  named := by decide

def bObject : StringObject := ⟨bLabels.labels, bLabels.keys_nodup⟩

/-- The second series does not have the key `a`, which comes before `b`. -/
def gapSeries : List Op := [.getOrCreateSeriesId cpuLabels, .getOrCreateSeriesId bLabels.labels]

theorem gapSeries_encodes : (gapSeries.foldl step newDatabase).Encodes "cpu" bLabels.labels [1, 0, 3] := by
  have hlabel : (gapSeries.foldl step newDatabase).label.rows =
      [⟨1, "__name__", "cpu"⟩, ⟨2, "a", "1"⟩, ⟨3, "b", "2"⟩] := by decide +kernel
  have hposition : (gapSeries.foldl step newDatabase).labelKeyPosition.rows =
      [⟨"cpu", "__name__", 1⟩, ⟨"cpu", "a", 2⟩, ⟨"cpu", "b", 3⟩] := by decide +kernel
  refine ⟨?_, ?_, .inr ⟨"b", "2", by simp [bLabels], by simp [HasPosition, hposition]⟩⟩
  · intro k v he
    simp only [bLabels, List.mem_cons, Prod.mk.injEq, List.not_mem_nil, or_false] at he
    rcases he with ⟨rfl, rfl⟩ | ⟨rfl, rfl⟩
    · exact ⟨1, 1, by simp [HasPosition, HasLabel, hposition, hlabel]⟩
    · exact ⟨3, 3, by simp [HasPosition, HasLabel, hposition, hlabel]⟩
  · intro i hi hunset
    match i, hi with
    | 0, _ =>
      exact absurd (by simp [HasPosition, hposition]) (hunset "__name__" "cpu" (by simp [bLabels]))
    | 1, _ => rfl
    | 2, _ => exact absurd (by simp [HasPosition, hposition]) (hunset "b" "2" (by simp [bLabels]))

theorem eqJson_misses_gap :
    (gapSeries.foldl step newDatabase).HasSeries "cpu" 2 [1, 0, 3] ∧
    (gapSeries.foldl step newDatabase).Encodes "cpu" bLabels.labels [1, 0, 3] ∧
    SameLabels bLabels bObject ∧
    (gapSeries.foldl step newDatabase).eqJson [1, 0, 3] bObject = some false ∧
    eqMatcher [1, 0, 3] ((gapSeries.foldl step newDatabase).matcher bObject) = some false := by
  have hrows : ((gapSeries.foldl step newDatabase).dataSeries "cpu").map (·.series.rows) =
      some [⟨1, 1, [1, 2, 3], none⟩, ⟨2, 1, [1, 0, 3], none⟩] := by decide +kernel
  obtain ⟨t, ht, hrows⟩ := Option.map_eq_some_iff.mp hrows
  refine ⟨⟨t, ht, ⟨2, 1, [1, 0, 3], none⟩, by simp [hrows], rfl, rfl⟩, gapSeries_encodes,
    fun _ _ _ => Iff.rfl, ?_, ?_⟩ <;> decide +kernel

theorem eq_decides_iff_gap :
    ¬ ((gapSeries.foldl step newDatabase).eqJson [1, 0, 3] bObject = some true ↔
      SameLabels bLabels bObject) := by
  have h := (eq_decides_iff gapSeries_encodes.hasLabelSet bObject).1
  intro hright
  rcases h.mp hright with hlength | hdiffer
  · exact absurd hlength (by decide)
  · exact hdiffer fun _ _ _ => Iff.rfl

theorem matchers_agree_gap :
    (gapSeries.foldl step newDatabase).matchEquals [1, 0, 3] ⟨"b", "2"⟩ = true ∧
    (gapSeries.foldl step newDatabase).matchNotEquals [1, 0, 3] ⟨"a", "1"⟩ = true ∧
    (gapSeries.foldl step newDatabase).matchRegexpMatches (fun value pat => value = pat) [1, 0, 3]
      ⟨"b", "2"⟩ = true := by
  obtain ⟨-, -, hequals, hregexp, -, hnot, -⟩ :=
    matchers_agree (fun value pat => value = pat) gapSeries_encodes.hasLabelSet
  refine ⟨(hequals "b" "2").mpr rfl, ?_, (hregexp "b" "2").mpr ⟨"2", rfl, by decide⟩⟩
  rw [hnot, Bool.not_eq_true']
  have hunset := (hequals "a" "1").not.mpr (by decide)
  exact Bool.eq_false_iff.mpr hunset

end Promscale.Catalog
