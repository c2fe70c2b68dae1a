import Promscale.Lib.Run
import Promscale.Tracing.Put

/-!
# Runs of the tracing catalog

The calls that put tags, the calls that put what spans refer to, and what else happens: spans
come and go, and ids drawn by transactions that are rolled back are lost.
-/
namespace Promscale.Tracing

open Promscale.Lib
open Promscale.Jsonb

inductive TagCall (N : Type) where
  | putTagKey (key : TagK) (tagType : TagType)
  | putTag (key : TagK) (value : Value N) (tagType : TagType)

inductive RefCall where
  | putOperation (name spanName : PgText) (spanKind : SpanKind)
  | putSchemaUrl (schemaUrl : PgText)
  | putInstrumentationLib (name version : Option PgText) (schemaUrlId : Option Nat)
  deriving DecidableEq

inductive Op (N : Type) where
  | tag (c : TagCall N)
  | ref (c : RefCall)
  | insertSpan (span : Span)
  | dropSpans (p : Span → Bool)
  | loseIds (tagKeys tags operations schemaUrls instrumentationLibs : Nat)

section
variable {N : Type} [JsonbFunctions N]

def TagCall.run (s : State N) : TagCall N → Except PgError (Nat × State N)
  | putTagKey key tagType => s.putTagKey key tagType
  | putTag key value tagType => s.putTag key value tagType

def RefCall.run (s : State N) : RefCall → Except PgError (Nat × State N)
  | putOperation name spanName spanKind => s.putOperation name spanName spanKind
  | putSchemaUrl schemaUrl => s.putSchemaUrl schemaUrl
  | putInstrumentationLib name version schemaUrlId =>
    s.putInstrumentationLib name version schemaUrlId

end

namespace State
variable {N : Type} [JsonbFunctions N]

/-- A call that fails is rolled back. -/
def commit (s : State N) : Except PgError (Nat × State N) → State N
  | .ok (_, s') => s'
  | .error _ => s

theorem commit_induct {s : State N} {r : Except PgError (Nat × State N)} {post : State N → Prop}
    (hfails : post s) (hreturns : ∀ i s', r = .ok (i, s') → post s') : post (s.commit r) := by
  cases r with
  | error e => exact hfails
  | ok result => exact hreturns result.1 result.2 rfl

def insertSpan (s : State N) (span : Span) : State N :=
  match s.span.insert span (Span.check_eq span) with
  | some t => { s with span := t }
  | none => s

def loseIds (s : State N) (tagKeys tags operations schemaUrls instrumentationLibs : Nat) :
    State N :=
  { s with
    tagKey := { s.tagKey with seq := s.tagKey.seq + tagKeys }
    tag := { s.tag with seq := s.tag.seq + tags }
    operation := { s.operation with seq := s.operation.seq + operations }
    schemaUrl := { s.schemaUrl with seq := s.schemaUrl.seq + schemaUrls }
    instrumentationLib :=
      { s.instrumentationLib with seq := s.instrumentationLib.seq + instrumentationLibs } }

def step (s : State N) : Op N → State N
  | .tag c => s.commit (c.run s)
  | .ref c => s.commit (c.run s)
  | .insertSpan span => s.insertSpan span
  | .dropSpans p => { s with span := s.span.delete p }
  | .loseIds tagKeys tags operations schemaUrls instrumentationLibs =>
    s.loseIds tagKeys tags operations schemaUrls instrumentationLibs

/-- The state after a run. -/
def after (s : State N) (ops : List (Op N)) : State N := ops.foldl step s

theorem after_append (s : State N) (ops more : List (Op N)) :
    s.after (ops ++ more) = (s.after ops).after more := List.foldl_append

theorem after_ref {s s' : State N} {c : RefCall} {i : Nat} (h : c.run s = .ok (i, s'))
    (more : List (Op N)) : s.after (.ref c :: more) = s'.after more := by
  rw [after, List.foldl_cons, step, h]
  rfl

/-! ## What the calls do -/

section Returns
variable {s s' : State N} {i : Nat}

theorem putTagKey_returns {key : TagK} {tagType : TagType}
    (h : s.putTagKey key tagType = .ok (i, s')) : ∃ k, i = k.id ∧ s' = { s with tagKey := s'.tagKey } ∧
      TagKey.bitmapped.PutEffect s.tagKey (·.key = key) (some fun id => ⟨id, tagType, key⟩) tagType
        k s'.tagKey := by
  unfold putTagKey at h
  split at h
  · cases h
  · rename_i k t hput
    cases h
    refine ⟨k, rfl, rfl, Bitmapped.put_returns (fun _ _ => rfl) ?_ hput⟩
    simp

theorem putTag_returns {key : TagK} {value : Value N} {tagType : TagType}
    (h : s.putTag key value tagType = .ok (i, s')) : ∃ t, i = t.id ∧ s' = { s with tag := s'.tag } ∧
      Tag.bitmapped.PutEffect s.tag (·.matches key value)
        ((s.tagKey.find? (·.key = key)).map fun k id => ⟨id, k.id, tagType, key, value⟩) tagType
        t s'.tag := by
  unfold putTag at h
  split at h
  · cases h
  · rename_i tag t hput
    split at h
    · cases h
      refine ⟨tag, rfl, rfl, Bitmapped.put_returns (fun _ _ => rfl) ?_ hput⟩
      intro row hrow n
      obtain ⟨k, _, rfl⟩ := Option.map_eq_some_iff.mp hrow
      exact Tag.matches_iff.mpr ⟨rfl, jsonbEq_refl value⟩
    · cases h

theorem putServiceName_returns {name : PgText} (h : s.putServiceName name = .ok (i, s')) :
    s' = { s with tag := s'.tag } ∧ IdTable.InternEffect Tag.id s.tag
      (fun t => t.matches serviceName (toJsonb name) && t.keyId = 1)
      (fun id => ⟨id, 1, resourceTagType, serviceName, toJsonb name⟩) i s'.tag := by
  unfold putServiceName at h
  split at h
  · cases h
  · rename_i id t hintern
    cases h
    exact ⟨rfl, IdTable.intern_returns hintern⟩

theorem putOperation_returns {name spanName : PgText} {spanKind : SpanKind}
    (h : s.putOperation name spanName spanKind = .ok (i, s')) :
    ∃ j s₁, s.putServiceName name = .ok (j, s₁) ∧ s' = { s₁ with operation := s'.operation } ∧
      IdTable.InternEffect Operation.id s₁.operation (·.matches j spanKind spanName)
        (fun id => ⟨id, j, spanKind, spanName⟩) i s'.operation := by
  unfold putOperation at h
  split at h
  · cases h
  · rename_i j s₁ hservice
    split at h
    · cases h
    · rename_i id t hintern
      cases h
      exact ⟨j, s₁, hservice, rfl, IdTable.intern_returns hintern⟩

theorem putSchemaUrl_returns {schemaUrl : PgText} (h : s.putSchemaUrl schemaUrl = .ok (i, s')) :
    s' = { s with schemaUrl := s'.schemaUrl } ∧ ∃ hurl,
      IdTable.InternEffect SchemaUrl.id s.schemaUrl (·.url.text = schemaUrl)
        (fun id => ⟨id, schemaUrl, hurl⟩) i s'.schemaUrl := by
  unfold putSchemaUrl at h
  split at h
  · rename_i hurl
    split at h
    · cases h
    · rename_i id t hintern
      cases h
      exact ⟨rfl, hurl, IdTable.intern_returns hintern⟩
  · cases h

theorem putInstrumentationLib_returns {name version : Option PgText} {schemaUrlId : Option Nat}
    (h : s.putInstrumentationLib name version schemaUrlId = .ok (i, s')) :
    s' = { s with instrumentationLib := s'.instrumentationLib } ∧ ∃ n v, name = some n ∧
      version = some v ∧ IdTable.InternEffect InstrumentationLib.id s.instrumentationLib
        (·.matches n v schemaUrlId) (fun id => ⟨id, n, v, schemaUrlId⟩) i s'.instrumentationLib := by
  cases name with
  | none => cases h
  | some n =>
    cases version with
    | none => cases h
    | some v =>
      unfold putInstrumentationLib at h
      simp only at h
      split at h
      · cases h
      · rename_i id t hintern
        cases h
        exact ⟨rfl, n, v, rfl, rfl, IdTable.intern_returns hintern⟩

end Returns

/-! ## What a run keeps -/

/-- Rows stay as they are, but for the bitmaps of tags and their keys. -/
structure Extends (s s' : State N) : Prop where
  tagKey : TagKey.bitmapped.Persist s.tagKey s'.tagKey
  tag : Tag.bitmapped.Persist s.tag s'.tag
  operation : s.operation.table.rows ⊆ s'.operation.table.rows
  schemaUrl : s.schemaUrl.table.rows ⊆ s'.schemaUrl.table.rows
  instrumentationLib : s.instrumentationLib.table.rows ⊆ s'.instrumentationLib.table.rows

theorem Extends.refl (s : State N) : s.Extends s :=
  ⟨.refl _, .refl _, List.Subset.refl _, List.Subset.refl _, List.Subset.refl _⟩

theorem Extends.trans {s s' s'' : State N} (h : s.Extends s') (h' : s'.Extends s'') :
    s.Extends s'' where
  tagKey := h.tagKey.trans h'.tagKey
  tag := h.tag.trans h'.tag
  operation := List.Subset.trans h.operation h'.operation
  schemaUrl := List.Subset.trans h.schemaUrl h'.schemaUrl
  instrumentationLib := List.Subset.trans h.instrumentationLib h'.instrumentationLib

/-- Ids are numbered, the key of service names has the id 1, and every tag has its key's id. -/
structure Sound (s : State N) : Prop where
  tagKeyNumbered : s.tagKey.WellNumbered TagKey.id
  tagNumbered : s.tag.WellNumbered Tag.id
  operationNumbered : s.operation.WellNumbered Operation.id
  schemaUrlNumbered : s.schemaUrl.WellNumbered SchemaUrl.id
  instrumentationLibNumbered : s.instrumentationLib.WellNumbered InstrumentationLib.id
  serviceNameKey : ∃ tagType, ⟨1, tagType, serviceName⟩ ∈ s.tagKey.table.rows
  tagHasKey : ∀ t ∈ s.tag.table.rows, ∃ tagType, ⟨t.keyId, tagType, t.key⟩ ∈ s.tagKey.table.rows

theorem sound_init (wellKnown : WellKnownTags) : (init wellKnown : State N).Sound where
  tagKeyNumbered := wellKnown.ids
  tagNumbered _ h := nomatch h
  operationNumbered _ h := nomatch h
  schemaUrlNumbered _ h := nomatch h
  instrumentationLibNumbered _ h := nomatch h
  serviceNameKey := wellKnown.hasServiceName
  tagHasKey _ h := nomatch h

section Calls
variable {s s' : State N} {i : Nat}

theorem tagCall_extends {c : TagCall N} (h : c.run s = .ok (i, s')) : s.Extends s' := by
  cases c with
  | putTagKey key tagType =>
    obtain ⟨k, _, hs', hput⟩ := putTagKey_returns h
    rw [hs']
    exact { Extends.refl s with tagKey := hput.persist }
  | putTag key value tagType =>
    obtain ⟨t, _, hs', hput⟩ := putTag_returns h
    rw [hs']
    exact { Extends.refl s with tag := hput.persist }

theorem putServiceName_extends {name : PgText} (h : s.putServiceName name = .ok (i, s')) :
    s.Extends s' := by
  obtain ⟨hs', hintern⟩ := putServiceName_returns h
  rw [hs']
  refine { Extends.refl s with tag := ?_ }
  intro t ht
  exact ⟨t.tagType, hintern.subset ht⟩

theorem refCall_extends {c : RefCall} (h : c.run s = .ok (i, s')) : s.Extends s' := by
  cases c with
  | putOperation name spanName spanKind =>
    obtain ⟨j, s₁, hservice, hs', hintern⟩ := putOperation_returns h
    rw [hs']
    exact (putServiceName_extends hservice).trans
      { Extends.refl s₁ with operation := hintern.subset }
  | putSchemaUrl schemaUrl =>
    obtain ⟨hs', hurl, hintern⟩ := putSchemaUrl_returns h
    rw [hs']
    exact { Extends.refl s with schemaUrl := hintern.subset }
  | putInstrumentationLib name version schemaUrlId =>
    obtain ⟨hs', n, v, _, _, hintern⟩ := putInstrumentationLib_returns h
    rw [hs']
    exact { Extends.refl s with instrumentationLib := hintern.subset }

theorem tagCall_sound {c : TagCall N} (h : c.run s = .ok (i, s')) (hs : s.Sound) : s'.Sound := by
  have hextends := tagCall_extends h
  cases c with
  | putTagKey key tagType =>
    obtain ⟨k, _, hs', hput⟩ := putTagKey_returns h
    rw [hs'] at hextends ⊢
    refine { hs with tagKeyNumbered := ?_, serviceNameKey := ?_, tagHasKey := ?_ }
    · exact hput.wellNumbered (by simp [TagKey.bitmapped]) hs.tagKeyNumbered
    · obtain ⟨tagType, hmem⟩ := hs.serviceNameKey
      obtain ⟨m, hm⟩ := hextends.tagKey _ hmem
      exact ⟨m, hm⟩
    · intro t ht
      obtain ⟨tagType, hmem⟩ := hs.tagHasKey t ht
      obtain ⟨m, hm⟩ := hextends.tagKey _ hmem
      exact ⟨m, hm⟩
  | putTag key value tagType =>
    obtain ⟨t, _, hs', hput⟩ := putTag_returns h
    rw [hs']
    refine { hs with tagNumbered := ?_, tagHasKey := ?_ }
    · refine hput.wellNumbered ?_ hs.tagNumbered
      intro row hrow n
      obtain ⟨k, _, rfl⟩ := Option.map_eq_some_iff.mp hrow
      rfl
    · intro t' ht'
      rcases hput.old_or_made ht' with ⟨t₀, ht₀, n, rfl⟩ | ⟨rfl, row, hrow, rfl⟩
      · exact hs.tagHasKey t₀ ht₀
      · obtain ⟨k, hfind, rfl⟩ := Option.map_eq_some_iff.mp hrow
        have hkey : k.key = key := by simpa using List.find?_some hfind
        refine ⟨k.tagType, ?_⟩
        rw [← hkey]
        exact List.mem_of_find?_eq_some hfind

theorem putServiceName_sound {name : PgText} (h : s.putServiceName name = .ok (i, s'))
    (hs : s.Sound) : s'.Sound := by
  obtain ⟨hs', hintern⟩ := putServiceName_returns h
  rw [hs']
  refine { hs with
    tagNumbered := hintern.wellNumbered (fun _ => rfl) hs.tagNumbered, tagHasKey := ?_ }
  intro t ht
  rcases hintern.old_or_made ht with ht | rfl
  · exact hs.tagHasKey t ht
  · exact hs.serviceNameKey

theorem refCall_sound {c : RefCall} (h : c.run s = .ok (i, s')) (hs : s.Sound) : s'.Sound := by
  cases c with
  | putOperation name spanName spanKind =>
    obtain ⟨j, s₁, hservice, hs', hintern⟩ := putOperation_returns h
    have hs₁ := putServiceName_sound hservice hs
    rw [hs']
    exact { hs₁ with
      operationNumbered := hintern.wellNumbered (fun _ => rfl) hs₁.operationNumbered }
  | putSchemaUrl schemaUrl =>
    obtain ⟨hs', hurl, hintern⟩ := putSchemaUrl_returns h
    rw [hs']
    exact { hs with
      schemaUrlNumbered := hintern.wellNumbered (fun _ => rfl) hs.schemaUrlNumbered }
  | putInstrumentationLib name version schemaUrlId =>
    obtain ⟨hs', n, v, _, _, hintern⟩ := putInstrumentationLib_returns h
    rw [hs']
    exact { hs with
      instrumentationLibNumbered :=
        hintern.wellNumbered (fun _ => rfl) hs.instrumentationLibNumbered }

end Calls

theorem step_extends (s : State N) (op : Op N) : s.Extends (s.step op) := by
  cases op with
  | tag c => exact commit_induct (.refl s) fun _ _ h => tagCall_extends h
  | ref c => exact commit_induct (.refl s) fun _ _ h => refCall_extends h
  | insertSpan span =>
    simp only [step, insertSpan]
    split
    · exact { Extends.refl s with }
    · exact .refl s
  | dropSpans p => exact { Extends.refl s with }
  | loseIds tagKeys tags operations schemaUrls instrumentationLibs =>
    exact { Extends.refl s with }

theorem step_sound {s : State N} (hs : s.Sound) (op : Op N) : (s.step op).Sound := by
  cases op with
  | tag c => exact commit_induct hs fun _ _ h => tagCall_sound h hs
  | ref c => exact commit_induct hs fun _ _ h => refCall_sound h hs
  | insertSpan span =>
    simp only [step, insertSpan]
    split
    · exact { hs with }
    · exact hs
  | dropSpans p => exact { hs with }
  | loseIds tagKeys tags operations schemaUrls instrumentationLibs =>
    exact { hs with
      tagKeyNumbered := fun k hk => Nat.le_add_right_of_le (hs.tagKeyNumbered k hk)
      tagNumbered := fun t ht => Nat.le_add_right_of_le (hs.tagNumbered t ht)
      operationNumbered := fun o ho => Nat.le_add_right_of_le (hs.operationNumbered o ho)
      schemaUrlNumbered := fun u hu => Nat.le_add_right_of_le (hs.schemaUrlNumbered u hu)
      instrumentationLibNumbered := fun il hil =>
        Nat.le_add_right_of_le (hs.instrumentationLibNumbered il hil) }

theorem after_extends (s : State N) (ops : List (Op N)) : s.Extends (s.after ops) := by
  induction ops generalizing s with
  | nil => exact .refl s
  | cons op ops ih => exact (step_extends s op).trans (ih (s.step op))

theorem after_sound {s : State N} (hs : s.Sound) (ops : List (Op N)) : (s.after ops).Sound := by
  induction ops generalizing s with
  | nil => exact hs
  | cons op ops ih => exact ih (step_sound hs op)

theorem init_after_sound (wellKnown : WellKnownTags) (ops : List (Op N)) :
    ((init wellKnown : State N).after ops).Sound :=
  after_sound (sound_init wellKnown) ops

/-! ## Rows told apart by the constraints -/

theorem tagKey_eq_of_id {s : State N} {k k' : TagKey} (hk : k ∈ s.tagKey.table.rows)
    (hk' : k' ∈ s.tagKey.table.rows) (hid : k.id = k'.id) : k = k' :=
  s.tagKey.table.eq_of_conflict hk hk' (by simp [TagKey.constraints, hid])

theorem tagKey_eq_of_key {s : State N} {k k' : TagKey} (hk : k ∈ s.tagKey.table.rows)
    (hk' : k' ∈ s.tagKey.table.rows) (hkey : k.key = k'.key) : k = k' :=
  s.tagKey.table.eq_of_conflict hk hk' (by simp [TagKey.constraints, hkey])

theorem tag_eq_of_id {s : State N} {t t' : Tag N} (ht : t ∈ s.tag.table.rows)
    (ht' : t' ∈ s.tag.table.rows) (hid : t.id = t'.id) : t = t' :=
  s.tag.table.eq_of_conflict ht ht' (by simp [Tag.constraints, hid])

theorem tag_eq_of_value {s : State N} {t t' : Tag N} (ht : t ∈ s.tag.table.rows)
    (ht' : t' ∈ s.tag.table.rows) (hkey : t.key = t'.key) (hvalue : jsonbEq t.value t'.value = true) : t = t' :=
  s.tag.table.eq_of_conflict ht ht' (by simp [Tag.constraints, hkey, digest_congr hvalue])

/-- Every tag with the key of service names has the id of that key. -/
theorem Sound.keyId_serviceName {s : State N} (hs : s.Sound) {t : Tag N} (ht : t ∈ s.tag.table.rows)
    (hkey : t.key = serviceName) : t.keyId = 1 := by
  obtain ⟨m, hm⟩ := hs.tagHasKey t ht
  obtain ⟨m', hm'⟩ := hs.serviceNameKey
  exact congrArg TagKey.id (tagKey_eq_of_key hm hm' hkey)

end State

end Promscale.Tracing
