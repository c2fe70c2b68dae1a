import Promscale.Lib.Members
import Promscale.Tracing.Operations

/-!
# Tag maps

`ps_trace.get_tag_map` turns an object into the ids of its tags and
`_ps_trace.tag_map_denormalize` turns the ids back into keys and values. Both aggregate with
`jsonb_object_agg`, which over no rows is null; only the first makes an empty object of that.
-/
namespace Promscale.Tracing

open Promscale.Lib
open Promscale.Jsonb

theorem lengthThenBytes_trans (s t u : PgText) (hst : s.lengthThenBytes t)
    (htu : t.lengthThenBytes u) : s.lengthThenBytes u := by
  rcases hst with hst | ⟨hlen, hst⟩ <;> rcases htu with htu | ⟨hlen', htu⟩
  · exact .inl (Nat.lt_trans hst htu)
  · exact .inl (by omega)
  · exact .inl (by omega)
  · exact .inr ⟨hlen.trans hlen', List.lt_trans hst htu⟩

theorem lengthThenBytes_total (s t : PgText) (hne : s ≠ t) (hst : ¬ s.lengthThenBytes t) :
    t.lengthThenBytes s := by
  by_cases hlen : s.bytes.length = t.bytes.length
  · refine .inr ⟨hlen.symm, ?_⟩
    by_contra hts
    have hbytes : ¬ s.bytes < t.bytes := fun hlt => hst (.inr ⟨hlen, hlt⟩)
    exact hne (PgText.ext (List.le_antisymm hts hbytes))
  · by_contra hts
    have hlt : ¬ s.bytes.length < t.bytes.length := fun hlt => hst (.inl hlt)
    have hgt : ¬ t.bytes.length < s.bytes.length := fun hgt => hts (.inl hgt)
    omega

variable {N : Type}

/-- `jsonb_object_agg` of texts and values; `none` over no rows. -/
def jsonbObjectAgg (pairs : List (PgText × Value N)) : Option (Value N) :=
  match pairs with
  | [] => none
  | pairs => some (.object (Members.ofPairs PgText.lengthThenBytes pairs))

/-- Under keys in order a key tells the member. -/
theorem eq_of_key {ms : List (PgText × Value N)}
    (hms : (ms.map Prod.fst).Pairwise PgText.lengthThenBytes) {x y : PgText × Value N}
    (hx : x ∈ ms) (hy : y ∈ ms) (hkey : x.1 = y.1) : x = y := by
  by_contra hne
  have hpairwise : ms.Pairwise fun x y => x.1 ≠ y.1 := by
    refine (List.pairwise_map.mp hms).imp fun {a b} hlt heq => ?_
    rw [heq] at hlt
    exact PgText.lengthThenBytes_asymm _ _ hlt hlt
  have hsymm : Std.Symm fun x y : PgText × Value N => x.1 ≠ y.1 := ⟨fun _ _ h => h.symm⟩
  exact hpairwise.forall hx hy hne hkey

variable [JsonbFunctions N]

/-- The tag of a member: `x.key = a.key`, the digests are equal and the values are. -/
def Tag.isFor (x : PgText × Value N) (a : Tag N) : Bool :=
  x.1 = a.key.text && digest x.2 = digest a.value && jsonbEq x.2 a.value

theorem Tag.isFor_iff {x : PgText × Value N} {a : Tag N} :
    a.isFor x = true ↔ a.key.text = x.1 ∧ jsonbEq a.value x.2 = true := by
  simp only [Tag.isFor, Bool.and_eq_true, decide_eq_true_eq]
  rw [jsonbEq_comm]
  constructor
  · rintro ⟨⟨hkey, _⟩, hvalue⟩
    exact ⟨hkey.symm, hvalue⟩
  · rintro ⟨hkey, hvalue⟩
    exact ⟨⟨hkey.symm, (digest_congr hvalue).symm⟩, hvalue⟩

namespace State
variable (s : State N)

/-- Keys of a tag map are ids, which as texts stand in the order of the numbers. -/
def getTagMap (tags : Value N) : Except PgError TagMap :=
  match tags with
  | .object members =>
    .ok (Members.ofPairs (· < ·)
      (members.filterMap fun x => (s.tag.find? (·.isFor x)).map fun a => (a.keyId, a.id)))
  | _ => .error ⟨"cannot call jsonb_each on a non-object", "22023"⟩

/-- The tags a map refers to, with their keys. -/
def tagsOf (map : TagMap) : List (PgText × Value N) :=
  map.flatMap fun f =>
    (s.tag.table.rows.filter fun t => f.2 = t.id).map fun t => (t.key.text, t.value)

def tagMapDenormalize (map : TagMap) : Option (Value N) :=
  jsonbObjectAgg (s.tagsOf map)

theorem mem_tagsOf {s : State N} {map : TagMap} {x : PgText × Value N} :
    x ∈ s.tagsOf map ↔ ∃ t ∈ s.tag.table.rows, (∃ k, (k, t.id) ∈ map) ∧ x = (t.key.text, t.value) := by
  simp only [tagsOf, List.mem_flatMap, List.mem_map, List.mem_filter, decide_eq_true_eq]
  constructor
  · rintro ⟨⟨k, v⟩, hf, t, ⟨ht, rfl⟩, rfl⟩
    exact ⟨t, ht, ⟨k, hf⟩, rfl⟩
  · rintro ⟨t, ht, ⟨k, hf⟩, rfl⟩
    exact ⟨(k, t.id), hf, t, ⟨ht, rfl⟩, rfl⟩

/-- Tags of one key have the same key id, tags of different keys different ones. -/
theorem Sound.keyId_eq_iff {s : State N} (hs : s.Sound) {t t' : Tag N}
    (ht : t ∈ s.tag.table.rows) (ht' : t' ∈ s.tag.table.rows) :
    t.keyId = t'.keyId ↔ t.key = t'.key := by
  obtain ⟨m, hm⟩ := hs.tagHasKey t ht
  obtain ⟨m', hm'⟩ := hs.tagHasKey t' ht'
  constructor
  · intro hid
    exact congrArg TagKey.key (tagKey_eq_of_id hm hm' hid)
  · intro hkey
    exact congrArg TagKey.id (tagKey_eq_of_key hm hm' hkey)

end State

/-- Objects whose members stand in order are equal when they have the same keys and equal values
under each of them. -/
theorem jsonbEq_object {ms ns : List (PgText × Value N)}
    (hms : (ms.map Prod.fst).Pairwise PgText.lengthThenBytes)
    (hns : (ns.map Prod.fst).Pairwise PgText.lengthThenBytes)
    (hkeys : ∀ k, k ∈ ms.map Prod.fst ↔ k ∈ ns.map Prod.fst)
    (hvalues : ∀ x ∈ ms, ∀ y ∈ ns, x.1 = y.1 → jsonbEq x.2 y.2 = true) :
    jsonbEq (.object ms) (.object ns) = true := by
  have hsame := eq_of_same_members PgText.lengthThenBytes_asymm hms hns hkeys
  clear hms hns hkeys
  rw [jsonbEq_iff, Value.preorder, Value.preorder]
  suffices h : Value.membersPreorder JsonbFunctions.numericNormalize ms =
      Value.membersPreorder JsonbFunctions.numericNormalize ns by rw [h]
  induction ms generalizing ns with
  | nil =>
    obtain rfl : ns = [] := by simpa using hsame.symm
    rfl
  | cons x ms ih =>
    cases ns with
    | nil => simp at hsame
    | cons y ns =>
      obtain ⟨hkey, hrest⟩ := List.cons.inj hsame
      have hvalue := hvalues x List.mem_cons_self y List.mem_cons_self hkey
      rw [Value.membersPreorder, Value.membersPreorder, jsonbEq_iff.mp hvalue, hkey,
        ih (fun x hx y hy => hvalues x (List.mem_cons_of_mem _ hx) y (List.mem_cons_of_mem _ hy))
          hrest]

section Stored
variable {s : State N} {ms : List (PgText × Value N)}

/-- Two tags for one member are one. -/
theorem State.tag_eq_of_isFor {x : PgText × Value N} {t t' : Tag N} (ht : t ∈ s.tag.table.rows)
    (ht' : t' ∈ s.tag.table.rows) (hfor : t.isFor x = true) (hfor' : t'.isFor x = true) :
    t = t' := by
  obtain ⟨hkey, hvalue⟩ := Tag.isFor_iff.mp hfor
  obtain ⟨hkey', hvalue'⟩ := Tag.isFor_iff.mp hfor'
  refine tag_eq_of_value ht ht' (NonemptyText.ext (hkey.trans hkey'.symm)) ?_
  exact jsonbEq_trans hvalue (jsonbEq_comm t'.value _ ▸ hvalue')

/-- The map has the ids of exactly the tags for the members. -/
theorem State.getTagMap_object (hs : s.Sound)
    (hms : (ms.map Prod.fst).Pairwise PgText.lengthThenBytes) : ∃ map,
    s.getTagMap (.object ms) = .ok map ∧ ∀ k i, (k, i) ∈ map ↔
      ∃ x ∈ ms, ∃ t ∈ s.tag.table.rows, t.isFor x = true ∧ k = t.keyId ∧ i = t.id := by
  have hpairs : ∀ k i, (k, i) ∈ ms.filterMap (fun x => (s.tag.find? (·.isFor x)).map
      fun a => (a.keyId, a.id)) ↔
      ∃ x ∈ ms, ∃ t ∈ s.tag.table.rows, t.isFor x = true ∧ k = t.keyId ∧ i = t.id := by
    intro k i
    rw [List.mem_filterMap]
    constructor
    · rintro ⟨x, hx, hmap⟩
      obtain ⟨t, hfind, heq⟩ := Option.map_eq_some_iff.mp hmap
      cases heq
      exact ⟨x, hx, t, List.mem_of_find?_eq_some hfind, List.find?_some hfind, rfl, rfl⟩
    · rintro ⟨x, hx, t, ht, hfor, rfl, rfl⟩
      obtain ⟨t', ht', hfor', hfind⟩ := IdTable.exists_find? ht hfor
      rw [State.tag_eq_of_isFor ht' ht hfor' hfor] at hfind
      exact ⟨x, hx, by rw [hfind]; rfl⟩
  refine ⟨_, rfl, fun k i => ?_⟩
  rw [Members.mem_ofPairs, hpairs]
  rintro ⟨k, i⟩ h ⟨k', i'⟩ h' hkey
  obtain ⟨x, hx, t, ht, hfor, rfl, rfl⟩ := (hpairs k i).mp h
  obtain ⟨x', hx', t', ht', hfor', rfl, rfl⟩ := (hpairs k' i').mp h'
  have htext := congrArg NonemptyText.text ((hs.keyId_eq_iff ht ht').mp hkey)
  rw [(Tag.isFor_iff.mp hfor).1, (Tag.isFor_iff.mp hfor').1] at htext
  rw [eq_of_key hms hx hx' htext] at hfor
  rw [State.tag_eq_of_isFor ht ht' hfor hfor']

/-- The tags of that map are the stored members. -/
theorem State.mem_tagsOf_iff {map : TagMap} (hmap : ∀ k i, (k, i) ∈ map ↔
      ∃ x ∈ ms, ∃ t ∈ s.tag.table.rows, t.isFor x = true ∧ k = t.keyId ∧ i = t.id)
    (y : PgText × Value N) : y ∈ s.tagsOf map ↔
      ∃ x ∈ ms, ∃ t ∈ s.tag.table.rows, t.isFor x = true ∧ y = (t.key.text, t.value) := by
  rw [State.mem_tagsOf]
  constructor
  · rintro ⟨t, ht, ⟨k, hk⟩, rfl⟩
    obtain ⟨x, hx, t', ht', hfor, _, hid⟩ := (hmap k t.id).mp hk
    rw [← State.tag_eq_of_id ht ht' hid] at hfor
    exact ⟨x, hx, t, ht, hfor, rfl⟩
  · rintro ⟨x, hx, t, ht, hfor, rfl⟩
    exact ⟨t, ht, ⟨t.keyId, (hmap _ _).mpr ⟨x, hx, t, ht, hfor, rfl, rfl⟩⟩, rfl⟩

/-- What the stored members denormalize to, if there are any, is equal to the object. -/
theorem State.jsonbEq_tagsOf {map : TagMap} (hms : (ms.map Prod.fst).Pairwise PgText.lengthThenBytes)
    (hstored : ∀ x ∈ ms, ∃ t ∈ s.tag.table.rows, t.isFor x = true)
    (htags : ∀ y, y ∈ s.tagsOf map ↔
      ∃ x ∈ ms, ∃ t ∈ s.tag.table.rows, t.isFor x = true ∧ y = (t.key.text, t.value)) :
    jsonbEq (.object (Members.ofPairs PgText.lengthThenBytes (s.tagsOf map))) (.object ms) = true := by
  have hagree : ∀ y ∈ s.tagsOf map, ∀ y' ∈ s.tagsOf map, y.1 = y'.1 → y = y' := by
    intro y hy y' hy' hkey
    obtain ⟨x, hx, t, ht, hfor, rfl⟩ := (htags y).mp hy
    obtain ⟨x', hx', t', ht', hfor', rfl⟩ := (htags y').mp hy'
    have hkey' : x.1 = x'.1 := by
      rw [← (Tag.isFor_iff.mp hfor).1, ← (Tag.isFor_iff.mp hfor').1]
      exact hkey
    rw [eq_of_key hms hx hx' hkey'] at hfor
    rw [State.tag_eq_of_isFor ht ht' hfor hfor']
  have hmem := @Members.mem_ofPairs _ _ _ PgText.lengthThenBytes _ _ hagree
  refine jsonbEq_object (Members.ofPairs_sorted lengthThenBytes_trans lengthThenBytes_total _) hms
    ?_ ?_
  · intro k
    simp only [List.mem_map]
    constructor
    · rintro ⟨y, hy, rfl⟩
      obtain ⟨x, hx, t, ht, hfor, rfl⟩ := (htags y).mp ((hmem y).mp hy)
      exact ⟨x, hx, (Tag.isFor_iff.mp hfor).1.symm⟩
    · rintro ⟨x, hx, rfl⟩
      obtain ⟨t, ht, hfor⟩ := hstored x hx
      exact ⟨_, (hmem _).mpr ((htags _).mpr ⟨x, hx, t, ht, hfor, rfl⟩), (Tag.isFor_iff.mp hfor).1⟩
  · intro y hy x hx hkey
    obtain ⟨x', hx', t, ht, hfor, rfl⟩ := (htags y).mp ((hmem y).mp hy)
    obtain ⟨htext, hvalue⟩ := Tag.isFor_iff.mp hfor
    rwa [eq_of_key hms hx' hx (htext.symm.trans hkey)] at hvalue

end Stored

/-- An object all of whose members are stored as tags is what its tag map denormalizes to exactly
when it has a member. -/
theorem denormalize_getTagMap_iff (wellKnown : WellKnownTags) (ops : List (Op N))
    (ms : List (PgText × Value N)) (hms : (ms.map Prod.fst).Pairwise PgText.lengthThenBytes)
    (hstored : ∀ x ∈ ms, ∃ t ∈ ((State.init wellKnown).after ops : State N).tag.table.rows,
      t.key.text = x.1 ∧ jsonbEq t.value x.2 = true) :
    let s : State N := (State.init wellKnown).after ops
    ∃ map, s.getTagMap (.object ms) = .ok map ∧
      ((∃ v, s.tagMapDenormalize map = some v ∧ jsonbEq v (.object ms) = true) ↔ ms ≠ []) := by
  intro s
  have hs : s.Sound := State.init_after_sound wellKnown ops
  have hstored' : ∀ x ∈ ms, ∃ t ∈ s.tag.table.rows, t.isFor x = true := by
    intro x hx
    obtain ⟨t, ht, hfor⟩ := hstored x hx
    exact ⟨t, ht, Tag.isFor_iff.mpr hfor⟩
  obtain ⟨map, hget, hmap⟩ := State.getTagMap_object hs hms
  have htags := State.mem_tagsOf_iff hmap
  have hequal := State.jsonbEq_tagsOf hms hstored' htags
  refine ⟨map, hget, ?_⟩
  unfold State.tagMapDenormalize jsonbObjectAgg
  split
  · rename_i hnil
    constructor
    · rintro ⟨v, hv, _⟩
      cases hv
    · intro hne
      obtain ⟨x, hx⟩ := List.exists_mem_of_ne_nil ms hne
      obtain ⟨t, ht, hfor⟩ := hstored' x hx
      have := (htags _).mpr ⟨x, hx, t, ht, hfor, rfl⟩
      rw [hnil] at this
      cases this
  · rename_i pairs hpairs
    constructor
    · rintro _ rfl
      obtain ⟨y, hy⟩ := List.exists_mem_of_ne_nil _ hpairs
      obtain ⟨x, hx, _⟩ := (htags y).mp hy
      cases hx
    · intro _
      exact ⟨_, rfl, hequal⟩

/-- `{"service.name": "a"}`, put as a tag. -/
theorem denormalize_getTagMap_serviceName :
    let s : State Empty := (State.init serviceNameOnly).after
      [.tag (.putTag serviceName (toJsonb letterA) 1)]
    ∃ map, s.getTagMap (.object [(serviceName.text, toJsonb letterA)]) = .ok map ∧
      ∃ v, s.tagMapDenormalize map = some v ∧
        jsonbEq v (.object [(serviceName.text, toJsonb letterA)]) = true := by
  have h := @denormalize_getTagMap_iff Empty _ serviceNameOnly
    [.tag (.putTag serviceName (toJsonb letterA) 1)] [(serviceName.text, toJsonb letterA)]
    (List.pairwise_singleton _ _) (by
      intro x hx
      rw [List.mem_singleton.mp hx]
      exact ⟨⟨1, 1, 1, serviceName, toJsonb letterA⟩, List.mem_singleton_self _, rfl, jsonbEq_refl _⟩)
  obtain ⟨map, hget, hiff⟩ := h
  exact ⟨map, hget, hiff.mpr (by simp)⟩

/-- The empty object has the empty map, which denormalizes to null. -/
theorem denormalize_getTagMap_empty : let s : State Empty := State.init serviceNameOnly
    s.getTagMap (.object []) = .ok [] ∧ s.tagMapDenormalize [] = none :=
  ⟨rfl, rfl⟩

end Promscale.Tracing
