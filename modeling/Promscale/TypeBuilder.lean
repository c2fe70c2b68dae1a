import Promscale.Aggregates.Basic

/-!
# Serialised aggregate states

`src/type_builder.rs`: the `do_serialize!` and `do_deserialize!` macros frame the
`bincode` form of a state with a version and a format octet inside a varlena. The
codec itself is a third-party crate and stays a parameter.
-/
namespace Promscale.TypeBuilder

open Promscale.Aggregates (Raise)

/-- `bincode::serialize_into` and `bincode::deserialize` at one type. -/
structure Bincode (α : Type) where
  serialize : α → List UInt8
  deserialize : List UInt8 → Except String α

/-- A `bytea` datum, without the four octets of its varlena header. -/
structure Bytea where
  data : List UInt8
  deriving DecidableEq, Repr

/-- `SerializationType::Default` -/
def serializationTypeDefault : UInt8 := 1

/-- The largest varlena. -/
def maxVarlena : Nat := 0x3FFFFFFF

variable {α : Type}

/-- `allocated_size`: the state, the two version octets and the varlena header. -/
def allocatedSize (codec : Bincode α) (state : α) : Nat :=
  (codec.serialize state).length + 2 + 4

/-- The error raised for a state that does not fit a varlena. -/
def tooLarge (size : Nat) : Raise := .error s!"size {size} bytes is to large"

/-- `do_serialize!(state)`, i.e. with `version: 1` -/
def doSerialize (codec : Bincode α) (state : α) : Except Raise Bytea :=
  if allocatedSize codec state > maxVarlena then .error (tooLarge (allocatedSize codec state))
  else .ok ⟨1 :: serializationTypeDefault :: codec.serialize state⟩

/-- `do_deserialize!(bytes, t)` -/
def doDeserialize (codec : Bincode α) (bytes : Bytea) : Except Raise α :=
  match bytes.data with
  | [] => .error (.error "deserialization error, no bytes")
  | version :: rest =>
    if version ≠ 1 then
      .error (.error s!"deserialization error, invalid serialization version {version}")
    else
      match rest with
      | [] => .error (.panic "index out of bounds")
      | format :: payload =>
        if format ≠ serializationTypeDefault then
          .error (.error s!"deserialization error, invalid serialization type {format}")
        else
          match codec.deserialize payload with
          | .error e => .error (.error s!"deserialization error {e}")
          | .ok state => .ok state

/-- What serialisation produced, deserialisation reads back, if the codec does. -/
theorem doDeserialize_doSerialize (codec : Bincode α) (state : α)
    (hround : codec.deserialize (codec.serialize state) = .ok state)
    (hsize : allocatedSize codec state ≤ maxVarlena) :
    ∃ bytes, doSerialize codec state = .ok bytes ∧ doDeserialize codec bytes = .ok state := by
  refine ⟨_, if_neg (Nat.not_lt.mpr hsize), ?_⟩
  simp [doDeserialize, hround]

theorem doSerialize_tooLarge (codec : Bincode α) (state : α)
    (hsize : maxVarlena < allocatedSize codec state) :
    doSerialize codec state = .error (tooLarge (allocatedSize codec state)) :=
  if_pos hsize

end Promscale.TypeBuilder
