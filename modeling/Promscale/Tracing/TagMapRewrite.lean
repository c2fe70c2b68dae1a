import Promscale.Lib.Kleene
import Promscale.Tracing.TagMaps

/-!
# Rewriting comparisons of tags

`tag_map_rewrite` of `src/support.rs` has the planner look for the ids of matching tags in the
tag map in place of comparing a denormalized value. The two are true on the same maps. Where
one is null the other may be false, and then `NOT` makes a difference.
-/
namespace Promscale.Tracing

open Promscale.Lib
open Promscale.Jsonb

inductive CompareOp where
  | eq
  | ne
  deriving DecidableEq, Repr

/-- `tag_map_denormalize(map) -> key OP value` -/
structure Comparison (N : Type) where
  op : CompareOp
  key : PgText
  value : Value N

/-- `map @> OP_matching_tags(key, value)`, or with `ANY` around a helper that returns an array. -/
inductive Rewritten (N : Type) where
  | contains (key : PgText) (value : Value N)
  | containsAny (key : PgText) (value : Value N)

/-- What the helper of the operator returns. -/
def CompareOp.helperReturnsArray : CompareOp → Bool
  | eq => false
  | ne => true

def tagMapRewrite {N : Type} (c : Comparison N) : Rewritten N :=
  if c.op.helperReturnsArray then .containsAny c.key c.value else .contains c.key c.value

/-- `@>` on tag maps. -/
def TagMap.containsMap (map other : TagMap) : Bool := other.all fun x => x ∈ map

variable {N : Type} [JsonbFunctions N]

/-- `->`; null stays null. -/
def tagMapObjectField (map : Option (Value N)) (key : PgText) : Option (Value N) :=
  match map with
  | some (.object members) => (members.find? (·.1 = key)).map (·.2)
  | _ => none

def tagVEq (v w : Value N) : Bool := jsonbEq v w

def tagVNe (v w : Value N) : Bool := !jsonbEq v w

namespace State
variable (s : State N)

def tagVEqMatchingTags (key : PgText) (value : Value N) : Option TagMap :=
  (s.tag.find? (·.isFor (key, value))).map fun a => [(a.keyId, a.id)]

def tagVNeMatchingTags (key : PgText) (value : Value N) : List TagMap :=
  (s.tag.table.rows.filter fun a => a.key.text = key && !jsonbEq a.value value).map
    fun a => [(a.keyId, a.id)]

/-- The value of a comparison on a tag map; `none` is null. -/
def evalComparison (map : TagMap) (c : Comparison N) : Option Bool :=
  (tagMapObjectField (s.tagMapDenormalize map) c.key).map fun v =>
    match c.op with
    | .eq => tagVEq v c.value
    | .ne => tagVNe v c.value

def evalRewritten (map : TagMap) : Rewritten N → Option Bool
  | .contains key value => (s.tagVEqMatchingTags key value).map map.containsMap
  | .containsAny key value => some ((s.tagVNeMatchingTags key value).any map.containsMap)

/-- The map holds ids of tags under the ids of their keys. -/
structure HoldsIds (map : TagMap) : Prop where
  sorted : (map.map Prod.fst).Pairwise (· < ·)
  ids : ∀ k i, (k, i) ∈ map → ∃ t ∈ s.tag.table.rows, t.keyId = k ∧ t.id = i

/-- The map has the id of the tag. -/
def InMap (map : TagMap) (t : Tag N) : Prop := t ∈ s.tag.table.rows ∧ (t.keyId, t.id) ∈ map

/-- A comparison with `=` is for a key the span has exactly when the pair is stored, one with `<>`
is for a key the span has. -/
def Decided (map : TagMap) (c : Comparison N) : Prop :=
  match c.op with
  | .eq => (∃ t, s.InMap map t ∧ t.key.text = c.key) ↔
      ∃ t ∈ s.tag.table.rows, t.key.text = c.key ∧ jsonbEq t.value c.value = true
  | .ne => ∃ t, s.InMap map t ∧ t.key.text = c.key

section
variable {s} {map : TagMap}

theorem HoldsIds.eq_of_key (h : s.HoldsIds map) {k i j : Nat} (hi : (k, i) ∈ map)
    (hj : (k, j) ∈ map) : i = j := by
  by_contra hne
  have hpairwise : map.Pairwise fun x y => x.1 ≠ y.1 :=
    (List.pairwise_map.mp h.sorted).imp fun hlt => Nat.ne_of_lt hlt
  have hsymm : Std.Symm fun x y : Nat × Nat => x.1 ≠ y.1 := ⟨fun _ _ h => h.symm⟩
  exact hpairwise.forall hi hj (by simp [hne]) rfl

/-- Two tags of a map with one key are one. -/
theorem InMap.eq_of_text (hs : s.Sound) (h : s.HoldsIds map) {t t' : Tag N} (ht : s.InMap map t)
    (ht' : s.InMap map t') (htext : t.key.text = t'.key.text) : t = t' := by
  have hkey := (hs.keyId_eq_iff ht.1 ht'.1).mpr (NonemptyText.ext htext)
  have hmem' := ht'.2
  rw [← hkey] at hmem'
  exact tag_eq_of_id ht.1 ht'.1 (h.eq_of_key ht.2 hmem')

theorem HoldsIds.mem_tagsOf_iff (h : s.HoldsIds map) (y : PgText × Value N) :
    y ∈ s.tagsOf map ↔ ∃ t, s.InMap map t ∧ y = (t.key.text, t.value) := by
  rw [mem_tagsOf]
  constructor
  · rintro ⟨t, ht, ⟨k, hk⟩, rfl⟩
    obtain ⟨t', ht', hkey, hid⟩ := h.ids k t.id hk
    obtain rfl := tag_eq_of_id ht' ht hid
    exact ⟨t', ⟨ht, hkey ▸ hk⟩, rfl⟩
  · rintro ⟨t, ⟨ht, hmem⟩, rfl⟩
    exact ⟨t, ht, ⟨t.keyId, hmem⟩, rfl⟩

/-- What `->` finds in a denormalized map. -/
theorem objectField_eq_some_iff (hs : s.Sound) (h : s.HoldsIds map) (key : PgText) (v : Value N) :
    tagMapObjectField (s.tagMapDenormalize map) key = some v ↔
      ∃ t, s.InMap map t ∧ t.key.text = key ∧ t.value = v := by
  have hagree : ∀ x ∈ s.tagsOf map, ∀ y ∈ s.tagsOf map, x.1 = y.1 → x = y := by
    intro x hx y hy hkey
    obtain ⟨t, ht, rfl⟩ := (h.mem_tagsOf_iff x).mp hx
    obtain ⟨t', ht', rfl⟩ := (h.mem_tagsOf_iff y).mp hy
    rw [InMap.eq_of_text hs h ht ht' hkey]
  unfold tagMapDenormalize jsonbObjectAgg
  split
  · rename_i hnil
    simp only [tagMapObjectField, reduceCtorEq, false_iff]
    rintro ⟨t, ht, _, _⟩
    have := (h.mem_tagsOf_iff _).mpr ⟨t, ht, rfl⟩
    rw [hnil] at this
    cases this
  · simp only [tagMapObjectField, Option.map_eq_some_iff, Members.find?_ofPairs hagree]
    constructor
    · rintro ⟨x, ⟨hx, rfl⟩, rfl⟩
      obtain ⟨t, ht, rfl⟩ := (h.mem_tagsOf_iff x).mp hx
      exact ⟨t, ht, rfl, rfl⟩
    · rintro ⟨t, ht, rfl, rfl⟩
      exact ⟨_, ⟨(h.mem_tagsOf_iff _).mpr ⟨t, ht, rfl⟩, rfl⟩, rfl⟩

theorem evalComparison_eq_some_iff (hs : s.Sound) (h : s.HoldsIds map) (c : Comparison N)
    (b : Bool) : s.evalComparison map c = some b ↔ ∃ t, s.InMap map t ∧ t.key.text = c.key ∧
      (match c.op with
        | .eq => jsonbEq t.value c.value
        | .ne => !jsonbEq t.value c.value) = b := by
  unfold evalComparison tagVEq tagVNe
  rw [Option.map_eq_some_iff]
  constructor
  · rintro ⟨v, hv, hb⟩
    obtain ⟨t, ht, hkey, rfl⟩ := (objectField_eq_some_iff hs h c.key v).mp hv
    exact ⟨t, ht, hkey, hb⟩
  · rintro ⟨t, ht, hkey, hb⟩
    exact ⟨t.value, (objectField_eq_some_iff hs h c.key t.value).mpr ⟨t, ht, hkey, rfl⟩, hb⟩

theorem containsMap_singleton (k i : Nat) :
    TagMap.containsMap map [(k, i)] = true ↔ (k, i) ∈ map := by
  simp [TagMap.containsMap]

/-- The helper of `=` finds the only tag there can be for the pair. -/
theorem evalRewritten_eq_iff (key : PgText) (value : Value N) (b : Bool) :
    s.evalRewritten map (tagMapRewrite ⟨.eq, key, value⟩) = some b ↔
      ∃ t ∈ s.tag.table.rows, t.isFor (key, value) = true ∧ ((t.keyId, t.id) ∈ map ↔ b = true) := by
  have hcontains : ∀ t : Tag N, TagMap.containsMap map [(t.keyId, t.id)] = b ↔
      ((t.keyId, t.id) ∈ map ↔ b = true) := by
    intro t
    rw [← containsMap_singleton, ← Bool.eq_iff_iff]
  simp only [tagMapRewrite, CompareOp.helperReturnsArray, Bool.false_eq_true, if_false,
    evalRewritten, tagVEqMatchingTags, Option.map_map, Option.map_eq_some_iff, Function.comp]
  constructor
  · rintro ⟨t, hfind, hb⟩
    exact ⟨t, List.mem_of_find?_eq_some hfind, List.find?_some hfind, (hcontains t).mp hb⟩
  · rintro ⟨t, ht, hfor, hb⟩
    obtain ⟨t', ht', hfor', hfind⟩ := IdTable.exists_find? ht hfor
    obtain rfl := tag_eq_of_isFor ht' ht hfor' hfor
    exact ⟨t', hfind, (hcontains t').mpr hb⟩

theorem evalRewritten_ne_iff (key : PgText) (value : Value N) (b : Bool) :
    s.evalRewritten map (tagMapRewrite ⟨.ne, key, value⟩) = some b ↔
      ((∃ t, s.InMap map t ∧ t.key.text = key ∧ jsonbEq t.value value = false) ↔ b = true) := by
  simp only [tagMapRewrite, CompareOp.helperReturnsArray, if_true, evalRewritten,
    tagVNeMatchingTags, Option.some.injEq]
  rw [Bool.eq_iff_iff, List.any_map]
  refine iff_congr ?_ Iff.rfl
  simp only [List.any_eq_true, List.mem_filter, Bool.and_eq_true, decide_eq_true_eq,
    Bool.not_eq_true', Function.comp, containsMap_singleton]
  constructor
  · rintro ⟨t, ⟨ht, hkey, hne⟩, hmem⟩
    exact ⟨t, ⟨ht, hmem⟩, hkey, hne⟩
  · rintro ⟨t, ⟨ht, hmem⟩, hkey, hne⟩
    exact ⟨t, ⟨ht, hkey, hne⟩, hmem⟩

/-- A comparison and its rewritten form are true on the same maps. -/
theorem rewrite_true_iff (hs : s.Sound) (h : s.HoldsIds map) (c : Comparison N) :
    s.evalComparison map c = some true ↔ s.evalRewritten map (tagMapRewrite c) = some true := by
  obtain ⟨op, key, value⟩ := c
  rw [evalComparison_eq_some_iff hs h]
  cases op with
  | eq =>
    rw [evalRewritten_eq_iff]
    constructor
    · rintro ⟨t, ⟨ht, hmem⟩, hkey, hvalue⟩
      exact ⟨t, ht, Tag.isFor_iff.mpr ⟨hkey, hvalue⟩, by simp [hmem]⟩
    · rintro ⟨t, ht, hfor, hmem⟩
      obtain ⟨hkey, hvalue⟩ := Tag.isFor_iff.mp hfor
      exact ⟨t, ⟨ht, hmem.mpr rfl⟩, hkey, hvalue⟩
  | ne =>
    rw [evalRewritten_ne_iff]
    simp

/-- For `=` they are false on the same maps exactly where the comparison is decided: a value the
map has for the key, and the pair that is stored, are each found from the other. -/
theorem rewrite_eq_false_iff (hs : s.Sound) (h : s.HoldsIds map) (key : PgText) (value : Value N) :
    (s.evalComparison map ⟨.eq, key, value⟩ = some false ↔
        s.evalRewritten map (tagMapRewrite ⟨.eq, key, value⟩) = some false) ↔
      s.Decided map ⟨.eq, key, value⟩ := by
  rw [evalComparison_eq_some_iff hs h, evalRewritten_eq_iff, Decided]
  constructor
  · intro hfalse
    constructor
    · rintro ⟨t, ht, hkey⟩
      cases hvalue : jsonbEq t.value value with
      | true => exact ⟨t, ht.1, hkey, hvalue⟩
      | false =>
        obtain ⟨t', ht', hfor, _⟩ := hfalse.mp ⟨t, ht, hkey, hvalue⟩
        exact ⟨t', ht', Tag.isFor_iff.mp hfor⟩
    · rintro ⟨t, ht, hkey, hvalue⟩
      by_cases hmem : (t.keyId, t.id) ∈ map
      · exact ⟨t, ⟨ht, hmem⟩, hkey⟩
      · have hfor : t.isFor (key, value) = true := Tag.isFor_iff.mpr ⟨hkey, hvalue⟩
        obtain ⟨t', ht', hkey', _⟩ := hfalse.mpr ⟨t, ht, hfor, by simp [hmem]⟩
        exact ⟨t', ht', hkey'⟩
  · intro hdecided
    constructor
    · rintro ⟨t, ht, hkey, hvalue⟩
      obtain ⟨t', ht', hkey', hvalue'⟩ := hdecided.mp ⟨t, ht, hkey⟩
      refine ⟨t', ht', Tag.isFor_iff.mpr ⟨hkey', hvalue'⟩, ?_⟩
      simp only [Bool.false_eq_true, iff_false]
      intro hmem
      rw [InMap.eq_of_text hs h ht ⟨ht', hmem⟩ (hkey.trans hkey'.symm), hvalue'] at hvalue
      cases hvalue
    · rintro ⟨t', ht', hfor, hmem⟩
      obtain ⟨hkey', hvalue'⟩ := Tag.isFor_iff.mp hfor
      obtain ⟨t, ht, hkey⟩ := hdecided.mpr ⟨t', ht', hkey', hvalue'⟩
      refine ⟨t, ht, hkey, ?_⟩
      by_contra htrue
      have hfor' : t.isFor (key, value) = true :=
        Tag.isFor_iff.mpr ⟨hkey, by simpa using htrue⟩
      rw [tag_eq_of_isFor ht.1 ht' hfor' hfor] at ht
      exact absurd (hmem.mp ht.2) (by simp)

/-- For `<>` it is enough that the map has the key; then it has one value for it. -/
theorem rewrite_ne_false_iff (hs : s.Sound) (h : s.HoldsIds map) (key : PgText) (value : Value N) :
    (s.evalComparison map ⟨.ne, key, value⟩ = some false ↔
        s.evalRewritten map (tagMapRewrite ⟨.ne, key, value⟩) = some false) ↔
      s.Decided map ⟨.ne, key, value⟩ := by
  rw [evalComparison_eq_some_iff hs h, evalRewritten_ne_iff, Decided]
  constructor
  · intro hfalse
    by_contra hnone
    have hrewritten : ¬ ∃ t, s.InMap map t ∧ t.key.text = key ∧
        jsonbEq t.value value = false := by
      rintro ⟨t, ht, hkey, _⟩
      exact hnone ⟨t, ht, hkey⟩
    obtain ⟨t, ht, hkey, _⟩ := hfalse.mpr (by simpa using hrewritten)
    exact hnone ⟨t, ht, hkey⟩
  · rintro ⟨t, ht, hkey⟩
    have honly : ∀ t', s.InMap map t' → t'.key.text = key → t' = t := fun t' ht' hkey' =>
      InMap.eq_of_text hs h ht' ht (hkey'.trans hkey.symm)
    simp only [Bool.not_eq_eq_eq_not, Bool.not_false, Bool.false_eq_true, iff_false]
    constructor
    · rintro ⟨t', ht', hkey', hvalue'⟩ ⟨t'', ht'', hkey'', hvalue''⟩
      rw [honly t' ht' hkey'] at hvalue'
      rw [honly t'' ht'' hkey'', hvalue'] at hvalue''
      cases hvalue''
    · intro hno
      refine ⟨t, ht, hkey, ?_⟩
      by_contra hvalue
      exact hno ⟨t, ht, hkey, by simpa using hvalue⟩

/-- They are false on the same maps exactly where the comparison is decided. -/
theorem rewrite_false_iff (hs : s.Sound) (h : s.HoldsIds map) (c : Comparison N) :
    (s.evalComparison map c = some false ↔
        s.evalRewritten map (tagMapRewrite c) = some false) ↔ s.Decided map c := by
  obtain ⟨op, key, value⟩ := c
  cases op with
  | eq => exact rewrite_eq_false_iff hs h key value
  | ne => exact rewrite_ne_false_iff hs h key value

end

end State

/-- On a tag map of a run's catalog, all conditions over a set of comparisons select the same as
their rewritten forms exactly when all of these comparisons are decided. For one condition it is
enough that those under an odd number of negations are. -/
theorem rewrite_selects_iff (wellKnown : WellKnownTags) (ops : List (Op N)) (map : TagMap)
    (hmap : ((State.init wellKnown).after ops : State N).HoldsIds map)
    (comparisons : Comparison N → Prop) :
    let s : State N := (State.init wellKnown).after ops
    let SelectsSame (e : BoolExpr (Comparison N)) : Prop := e.eval (s.evalComparison map) = some true ↔
      (e.map tagMapRewrite).eval (s.evalRewritten map) = some true
    ((∀ e, (∀ even c, e.Occurs even c → comparisons c) → SelectsSame e) ↔
        ∀ c, comparisons c → s.Decided map c) ∧
      ∀ e, (∀ c, e.Occurs false c → s.Decided map c) → SelectsSame e := by
  intro s SelectsSame
  have hs : s.Sound := State.init_after_sound wellKnown ops
  have hodd : ∀ e, (∀ c, e.Occurs false c → s.Decided map c) → SelectsSame e := by
    intro e hdecided
    simp only [SelectsSame, BoolExpr.eval_map]
    refine e.eval_eq_some_congr true (fun c _ => State.rewrite_true_iff hs hmap c) ?_
    intro c hc
    exact (State.rewrite_false_iff hs hmap c).mpr (hdecided c hc)
  refine ⟨⟨?_, ?_⟩, hodd⟩
  · intro hall c hc
    have hnot := hall (.not (.atom c)) (by
      rintro even c' ⟨_, rfl⟩
      exact hc)
    simp only [SelectsSame, BoolExpr.map, BoolExpr.eval, Kleene.not_eq_some_iff] at hnot
    exact (State.rewrite_false_iff hs hmap c).mp hnot
  · intro hdecided e he
    exact hodd e fun c hc => hdecided c (he false c hc)

/-- `tag_map_denormalize(map) -> 'service.name' = '"a"'` -/
def isServiceA : Comparison Empty := ⟨.eq, serviceName.text, toJsonb letterA⟩

/-- A span of the service `a`, and the condition that it is not of that service. -/
theorem rewrite_selects_serviceA :
    let s : State Empty := (State.init serviceNameOnly).after
      [.tag (.putTag serviceName (toJsonb letterA) 1)]
    (BoolExpr.not (.atom isServiceA)).eval (s.evalComparison [(1, 1)]) = some true ↔
      ((BoolExpr.not (.atom isServiceA)).map tagMapRewrite).eval (s.evalRewritten [(1, 1)]) =
        some true := by
  have hrow : (⟨1, 1, 1, serviceName, toJsonb letterA⟩ : Tag Empty) ∈
      ((State.init serviceNameOnly).after
        [.tag (.putTag serviceName (toJsonb letterA) 1)] : State Empty).tag.table.rows :=
    List.mem_singleton_self _
  have hmap : ((State.init serviceNameOnly).after
      [.tag (.putTag serviceName (toJsonb letterA) 1)] : State Empty).HoldsIds [(1, 1)] := by
    refine ⟨List.pairwise_singleton _ _, ?_⟩
    intro k i hki
    cases List.mem_singleton.mp hki
    exact ⟨_, hrow, rfl, rfl⟩
  refine (rewrite_selects_iff serviceNameOnly _ [(1, 1)] hmap (· = isServiceA)).2 _ ?_
  rintro c ⟨_, rfl⟩
  exact ⟨fun _ => ⟨_, hrow, rfl, jsonbEq_refl _⟩, fun _ => ⟨_, ⟨hrow, List.mem_singleton_self _⟩, rfl⟩⟩

/-- A span without tags is of no service, but only the rewritten condition finds it when the
service is known. -/
theorem rewrite_not_noTags :
    let s : State Empty := (State.init serviceNameOnly).after
      [.tag (.putTag serviceName (toJsonb letterA) 1)]
    s.HoldsIds [] ∧ (BoolExpr.not (.atom isServiceA)).eval (s.evalComparison []) = none ∧
      ((BoolExpr.not (.atom isServiceA)).map tagMapRewrite).eval (s.evalRewritten []) = some true :=
  ⟨⟨.nil, by simp⟩, rfl, rfl⟩

end Promscale.Tracing
