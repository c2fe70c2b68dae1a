import Promscale.Jsonb.Digest
import Promscale.Lib.IdTable
import Promscale.Postgres

/-!
# The tracing catalog

The tables of `incremental/012-tracing.sql`, as `015-tracing-redesign.sql` and
`032-remove-non-empty-span-name-constraint.sql` leave them. Tag values are jsonb; the table of
tags is indexed by their digest.
-/
namespace Promscale.Tracing

open Promscale.Lib
open Promscale.Jsonb

/-- What the functions on jsonb values use of Postgres: the text `numeric_normalize` gives a
numeric, the hash, and the text of a value that is not a string. -/
class JsonbFunctions (N : Type) where
  numericNormalize : N → PgText
  sha512 : List UInt8 → List UInt8
  out : Value N → PgText

section Jsonb
variable {N : Type} [JsonbFunctions N]

/-- `jsonb_eq`. Postgres walks both values and compares what it meets, numerics by value. -/
def jsonbEq (v w : Value N) : Bool :=
  v.preorder JsonbFunctions.numericNormalize = w.preorder JsonbFunctions.numericNormalize

/-- `_prom_ext.jsonb_digest` -/
def digest (v : Value N) : List UInt8 :=
  JsonbFunctions.sha512 N (hasherInput (v.preorder JsonbFunctions.numericNormalize))

/-- `to_jsonb` of a text. -/
def toJsonb (s : PgText) : Value N := .scalar (.string s)

/-- `v #>> '{}'` -/
def asText : Value N → Option PgText
  | .scalar .null => none
  | .scalar (.string s) => some s
  | v => some (JsonbFunctions.out v)

theorem jsonbEq_iff {v w : Value N} : jsonbEq v w = true ↔
    v.preorder JsonbFunctions.numericNormalize = w.preorder JsonbFunctions.numericNormalize :=
  decide_eq_true_iff

@[simp] theorem jsonbEq_refl (v : Value N) : jsonbEq v v = true :=
  jsonbEq_iff.mpr rfl

theorem jsonbEq_comm (v w : Value N) : jsonbEq v w = jsonbEq w v := by
  simp only [jsonbEq, eq_comm]

theorem jsonbEq_trans {u v w : Value N} (huv : jsonbEq u v = true) (hvw : jsonbEq v w = true) :
    jsonbEq u w = true := by
  rw [jsonbEq_iff] at huv hvw ⊢
  exact huv.trans hvw

theorem digest_congr {v w : Value N} (h : jsonbEq v w = true) : digest v = digest w := by
  rw [digest, digest, jsonbEq_iff.mp h]

/-- Where normalized numerics are equal as numerics are, the walk compares values. -/
theorem jsonbEq_iff_equal {numericEq : N → N → Prop} {keyLt : PgText → PgText → Prop}
    (hnormalize : ∀ m n : N, JsonbFunctions.numericNormalize m =
      JsonbFunctions.numericNormalize n ↔ numericEq m n)
    (hasymm : ∀ s t, keyLt s t → ¬ keyLt t s) {v w : Value N} (hv : v.Canonical keyLt)
    (hw : w.Canonical keyLt) : jsonbEq v w = true ↔ v.Equal numericEq w := by
  rw [jsonbEq_iff]
  exact Value.preorder_eq_iff hnormalize hasymm v w hv hw

/-- The digest is the one the `jsonb_digest` function computes. -/
theorem jsonbDigest_eq (v : Value N) : jsonbDigest JsonbFunctions.numericNormalize
    (JsonbFunctions.sha512 N) v = .ok (digest v) := by
  rw [jsonbDigest, digestInput, tokens_eq_preorder]
  rfl

@[simp] theorem asText_toJsonb (s : PgText) : asText (toJsonb s : Value N) = some s := rfl

@[simp] theorem jsonbEq_toJsonb (s t : PgText) :
    jsonbEq (toJsonb s : Value N) (toJsonb t) = true ↔ s = t := by
  simp [jsonbEq_iff, toJsonb, Value.preorder, Scalar.token]

end Jsonb

/-- A text that is not `''`. -/
structure NonemptyText where
  text : PgText
  nonempty : text.bytes ≠ []
  deriving DecidableEq

@[ext] theorem NonemptyText.ext {s t : NonemptyText} (h : s.text = t.text) : s = t := by
  cases s
  cases t
  simpa using h

/-- `ps_trace.tag_k` -/
abbrev TagK := NonemptyText

/-- `ps_trace.tag_type`, a bitmap of 16 bits. -/
abbrev TagType := BitVec 16

def resourceTagType : TagType := 1 <<< 1

/-- `service.name` -/
def serviceName : TagK where
  text := ⟨[0x73, 0x65, 0x72, 0x76, 0x69, 0x63, 0x65, 0x2E, 0x6E, 0x61, 0x6D, 0x65], by simp⟩
  nonempty := by simp

/-- A row of `_ps_trace.tag_key`. -/
structure TagKey where
  id : Nat
  tagType : TagType
  key : TagK
  deriving DecidableEq

def TagKey.constraints : Constraints TagKey where
  conflict a b := a.id = b.id || a.key = b.key
  symm a b := by simp only [eq_comm]
  check _ := true

theorem TagKey.check_eq (r : TagKey) : TagKey.constraints.check r = true := rfl

/-- A row of `_ps_trace.tag`. -/
structure Tag (N : Type) where
  id : Nat
  keyId : Nat
  tagType : TagType
  key : TagK
  value : Value N

def Tag.constraints (N : Type) [JsonbFunctions N] : Constraints (Tag N) where
  conflict a b := a.id = b.id || (a.key = b.key && digest a.value = digest b.value)
  symm a b := by simp only [eq_comm]
  check _ := true

theorem Tag.check_eq {N : Type} [JsonbFunctions N] (r : Tag N) :
    (Tag.constraints N).check r = true := rfl

inductive SpanKind where
  | unspecified
  | internal
  | server
  | client
  | producer
  | consumer
  deriving DecidableEq, Repr

/-- A row of `_ps_trace.operation`. -/
structure Operation where
  id : Nat
  serviceNameId : Nat
  spanKind : SpanKind
  spanName : PgText
  deriving DecidableEq

def Operation.constraints : Constraints Operation where
  conflict a b := a.id = b.id ||
    (a.serviceNameId = b.serviceNameId && a.spanName = b.spanName && a.spanKind = b.spanKind)
  symm a b := by simp only [eq_comm]
  check _ := true

theorem Operation.check_eq (r : Operation) : Operation.constraints.check r = true := rfl

/-- A row of `_ps_trace.schema_url`. -/
structure SchemaUrl where
  id : Nat
  url : NonemptyText
  deriving DecidableEq

def SchemaUrl.constraints : Constraints SchemaUrl where
  conflict a b := a.id = b.id || a.url = b.url
  symm a b := by simp only [eq_comm]
  check _ := true

theorem SchemaUrl.check_eq (r : SchemaUrl) : SchemaUrl.constraints.check r = true := rfl

/-- A row of `_ps_trace.instrumentation_lib`. -/
structure InstrumentationLib where
  id : Nat
  name : PgText
  version : PgText
  schemaUrlId : Option Nat
  deriving DecidableEq

/-- Rows without a schema URL are distinct from all others in the unique constraint. -/
def InstrumentationLib.constraints : Constraints InstrumentationLib where
  conflict a b := a.id = b.id || (a.name = b.name && a.version = b.version &&
    a.schemaUrlId.isSome && a.schemaUrlId = b.schemaUrlId)
  symm a b := by
    by_cases h : a.schemaUrlId = b.schemaUrlId
    · simp only [h, eq_comm]
    · simp only [h, Ne.symm h, decide_false, Bool.and_false, eq_comm]
  check _ := true

theorem InstrumentationLib.check_eq (r : InstrumentationLib) :
    InstrumentationLib.constraints.check r = true := rfl

/-- `ps_trace.tag_map`: jsonb whose members are ids of tags under ids of tag keys. -/
abbrev TagMap := List (Nat × Nat)

/-- A `tstzrange`; a bound that is there comes with whether it is in the range. -/
inductive TstzRange where
  | empty
  | bounds (lower upper : Option (Int × Bool))
  deriving DecidableEq, Repr

inductive StatusCode where
  | unset
  | ok
  | error
  deriving DecidableEq, Repr

/-- A row of `_ps_trace.span`; its duration is the octets of a double. -/
structure Span where
  traceId : Nat
  spanId : Int
  parentSpanId : Option Int
  operationId : Nat
  startTime : Int
  endTime : Int
  durationMs : BitVec 64
  instrumentationLibId : Option Nat
  resourceSchemaUrlId : Option Nat
  eventTime : Option TstzRange
  droppedTagsCount : Int
  droppedEventsCount : Int
  droppedLinkCount : Int
  resourceDroppedTagsCount : Int
  statusCode : StatusCode
  traceState : Option PgText
  spanTags : TagMap
  statusMessage : Option PgText
  resourceTags : TagMap
  deriving DecidableEq

def Span.constraints : Constraints Span where
  conflict a b := a.spanId = b.spanId && a.traceId = b.traceId && a.startTime = b.startTime
  symm a b := by simp only [eq_comm]
  check _ := true

theorem Span.check_eq (r : Span) : Span.constraints.check r = true := rfl

structure State (N : Type) [JsonbFunctions N] where
  tagKey : IdTable TagKey TagKey.constraints
  tag : IdTable (Tag N) (Tag.constraints N)
  operation : IdTable Operation Operation.constraints
  schemaUrl : IdTable SchemaUrl SchemaUrl.constraints
  instrumentationLib : IdTable InstrumentationLib InstrumentationLib.constraints
  span : Table Span Span.constraints

/-- The keys `013-tracing-well-known-tags.sql` puts into a new database, which sets their
sequence to 1000. -/
structure WellKnownTags where
  table : Table TagKey TagKey.constraints
  ids : ∀ k ∈ table.rows, k.id ≤ 1000
  hasServiceName : ∃ tagType, (⟨1, tagType, serviceName⟩ : TagKey) ∈ table.rows

/-- The well-known tags up to the key of service names. -/
def serviceNameOnly : WellKnownTags where
  table := ⟨[⟨1, 15, serviceName⟩], List.pairwise_singleton _ _, fun _ _ => rfl⟩
  ids := by simp
  hasServiceName := ⟨15, List.mem_singleton_self _⟩

/-- Values without numerics, under a hash without collisions. -/
instance : JsonbFunctions Empty where
  numericNormalize n := nomatch n
  sha512 := id
  out _ := ⟨[], by simp⟩

theorem letterA_noNul : (0 : UInt8) ∉ [0x61] := by simp

/-- `a` -/
def letterA : PgText := ⟨[0x61], letterA_noNul⟩

namespace State
variable {N : Type} [JsonbFunctions N]

/-- A new database. -/
def init (wellKnown : WellKnownTags) : State N where
  tagKey := ⟨wellKnown.table, 1000⟩
  tag := ⟨.empty, 0⟩
  operation := ⟨.empty, 0⟩
  schemaUrl := ⟨.empty, 0⟩
  instrumentationLib := ⟨.empty, 0⟩
  span := .empty

end State

end Promscale.Tracing
