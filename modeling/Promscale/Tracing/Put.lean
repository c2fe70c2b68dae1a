import Promscale.Lib.BitmapTable
import Promscale.Tracing.State

/-!
# Putting tags and what spans refer to

The `put_` functions of `idempotent/008-tracing-functions.sql`. Those that are `STRICT` are
not called with a null; `put_instrumentation_lib` is.
-/
namespace Promscale.Tracing

open Promscale.Lib
open Promscale.Jsonb

def noDataFound : PgError := ⟨"query returned no rows", "P0002"⟩

def uniqueViolation (constraint : String) : PgError :=
  ⟨"duplicate key value violates unique constraint \"" ++ constraint ++ "\"", "23505"⟩

def checkViolation (relation constraint : String) : PgError :=
  ⟨"new row for relation \"" ++ relation ++ "\" violates check constraint \"" ++ constraint ++ "\"",
    "23514"⟩

def notNullViolation (relation column : String) : PgError :=
  ⟨"null value in column \"" ++ column ++ "\" of relation \"" ++ relation ++
    "\" violates not-null constraint", "23502"⟩

def foreignKeyViolation (relation constraint : String) : PgError :=
  ⟨"insert or update on table \"" ++ relation ++ "\" violates foreign key constraint \"" ++
    constraint ++ "\"", "23503"⟩

/-- The exception of `put_tag`, its parameters not filled in. -/
def identicalDigest : PgError :=
  ⟨"put_tag failed. Distinct values % and % for key % have identical sha512 digest.", "P0001"⟩

def TagKey.bitmapped : Bitmapped TagKey.constraints 16 where
  id := TagKey.id
  bits := TagKey.tagType
  setBits k tagType := { k with tagType }
  id_setBits _ _ := rfl
  bits_setBits _ _ := rfl
  setBits_bits _ := rfl
  setBits_setBits _ _ _ := rfl
  conflict_setBits _ _ _ _ := rfl
  check_setBits _ _ := rfl

/-- `name = _name AND version = _version AND schema_url_id = _schema_url_id`, which no row
meets when there is no id to compare with. -/
def InstrumentationLib.matches (name version : PgText) (schemaUrlId : Option Nat)
    (il : InstrumentationLib) : Bool :=
  il.name = name && il.version = version && schemaUrlId.isSome && il.schemaUrlId = schemaUrlId

def Operation.matches (serviceNameId : Nat) (spanKind : SpanKind) (spanName : PgText)
    (o : Operation) : Bool :=
  o.serviceNameId = serviceNameId && o.spanKind = spanKind && o.spanName = spanName

section
variable {N : Type} [JsonbFunctions N]

def Tag.bitmapped : Bitmapped (Tag.constraints N) 16 where
  id := Tag.id
  bits := Tag.tagType
  setBits t tagType := { t with tagType }
  id_setBits _ _ := rfl
  bits_setBits _ _ := rfl
  setBits_bits _ := rfl
  setBits_setBits _ _ _ := rfl
  conflict_setBits _ _ _ _ := rfl
  check_setBits _ _ := rfl

/-- `key = _key AND jsonb_digest(value) = jsonb_digest(_value)`, what tags are unique in. -/
def Tag.sameDigest (key : TagK) (value : Value N) (t : Tag N) : Bool :=
  t.key = key && digest t.value = digest value

def Tag.matches (key : TagK) (value : Value N) (t : Tag N) : Bool :=
  t.sameDigest key value && jsonbEq t.value value

theorem Tag.matches_iff {key : TagK} {value : Value N} {t : Tag N} :
    t.matches key value = true ↔ t.key = key ∧ jsonbEq t.value value = true := by
  simp only [Tag.matches, Tag.sameDigest, Bool.and_eq_true, decide_eq_true_eq]
  constructor
  · rintro ⟨⟨hkey, _⟩, hvalue⟩
    exact ⟨hkey, hvalue⟩
  · rintro ⟨hkey, hvalue⟩
    exact ⟨⟨hkey, digest_congr hvalue⟩, hvalue⟩

end

namespace State
variable {N : Type} [JsonbFunctions N] (s : State N)

def putTagKey (key : TagK) (tagType : TagType) : Except PgError (Nat × State N) :=
  match TagKey.bitmapped.put TagKey.check_eq (uniqueViolation "tag_key_pkey") noDataFound s.tagKey
      (·.key = key) (·.key = key) (some fun id => ⟨id, tagType, key⟩) tagType with
  | .error e => .error e
  | .ok (tagKey, t) => .ok (tagKey.id, { s with tagKey := t })

def putTag (key : TagK) (value : Value N) (tagType : TagType) : Except PgError (Nat × State N) :=
  match Tag.bitmapped.put Tag.check_eq (uniqueViolation "tag_pkey") noDataFound s.tag
      (·.matches key value) (·.sameDigest key value)
      ((s.tagKey.find? (·.key = key)).map fun k id => ⟨id, k.id, tagType, key, value⟩)
      tagType with
  | .error e => .error e
  | .ok (tag, t) =>
    if jsonbEq tag.value value then .ok (tag.id, { s with tag := t }) else .error identicalDigest

/-- The first half of `put_operation`: the id of the tag with the name of the service. Its key
is taken to have the id 1. -/
def putServiceName (name : PgText) : Except PgError (Nat × State N) :=
  match s.tag.intern Tag.check_eq
      (if s.tagKey.table.rows.any (·.key = serviceName) then none
        else some (foreignKeyViolation "tag" "tag_key_fkey")) noDataFound
      Tag.id (fun t => t.matches serviceName (toJsonb name) && t.keyId = 1)
      fun id => ⟨id, 1, resourceTagType, serviceName, toJsonb name⟩ with
  | .error e => .error e
  | .ok (id, t) => .ok (id, { s with tag := t })

def putOperation (name spanName : PgText) (spanKind : SpanKind) :
    Except PgError (Nat × State N) :=
  match s.putServiceName name with
  | .error e => .error e
  | .ok (serviceNameId, s) =>
    match s.operation.intern Operation.check_eq none noDataFound Operation.id
        (·.matches serviceNameId spanKind spanName)
        fun id => ⟨id, serviceNameId, spanKind, spanName⟩ with
    | .error e => .error e
    | .ok (id, t) => .ok (id, { s with operation := t })

def putSchemaUrl (schemaUrl : PgText) : Except PgError (Nat × State N) :=
  if hurl : schemaUrl.bytes ≠ [] then
    match s.schemaUrl.intern SchemaUrl.check_eq none noDataFound SchemaUrl.id (·.url.text = schemaUrl)
        fun id => ⟨id, schemaUrl, hurl⟩ with
    | .error e => .error e
    | .ok (id, t) => .ok (id, { s with schemaUrl := t })
  else .error (checkViolation "schema_url" "schema_url_url_check")

/-- A name or version that is null equals no row's, and cannot be inserted. -/
def putInstrumentationLib (name version : Option PgText) (schemaUrlId : Option Nat) :
    Except PgError (Nat × State N) :=
  match name, version with
  | none, _ => .error (notNullViolation "instrumentation_lib" "name")
  | some _, none => .error (notNullViolation "instrumentation_lib" "version")
  | some name, some version =>
    match s.instrumentationLib.intern InstrumentationLib.check_eq
        (if schemaUrlId.all fun id => s.schemaUrl.table.rows.any (·.id = id) then none
          else some (foreignKeyViolation "instrumentation_lib"
            "instrumentation_lib_schema_url_id_fkey")) noDataFound
        InstrumentationLib.id (·.matches name version schemaUrlId)
        fun id => ⟨id, name, version, schemaUrlId⟩ with
    | .error e => .error e
    | .ok (id, t) => .ok (id, { s with instrumentationLib := t })

end State

end Promscale.Tracing
