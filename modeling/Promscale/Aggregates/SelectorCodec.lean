import Mathlib.Algebra.GroupWithZero.Nat
import Promscale.Aggregates.VectorSelector
import Promscale.Lib.LittleEndian
import Promscale.TypeBuilder

/-!
# The bincode form of a selector

`bincode` writes integers as fixed-width little-endian words, a vector as its length
and its elements, an option as a tag octet. The codec here does so for selectors over
values given by their bits, and reads back every selector whose numbers are `i64`.
-/
namespace Promscale.Aggregates

open Promscale.Lib Promscale.TypeBuilder

/-- Every number of the state is an `i64`, as the types of the source have it. -/
def VectorSelector.AllI64 {F : Type} (vs : VectorSelector F) : Prop :=
  IsI64 vs.firstBucketMaxTime ∧ IsI64 vs.lastBucketMaxTime ∧ IsI64 vs.endTime ∧
    IsI64 vs.bucketWidth ∧ IsI64 vs.lookback ∧
    ∀ s, some s ∈ vs.elements → IsI64 s.1

/-- `bincode` reads back every state it has written. -/
def RoundTrips {F : Type} (codec : Bincode (VectorSelector F)) : Prop :=
  ∀ vs : VectorSelector F, vs.AllI64 → vs.elements.length < 2 ^ 64 →
    codec.deserialize (codec.serialize vs) = .ok vs

namespace SelectorCodec

def i64Bytes (n : Int) : List UInt8 := leBytes 8 (asUsize n)

/-- The `i64` with the bits of an unsigned word. -/
def i64OfWord (word : Nat) : Int := if word < 2 ^ 63 then word else word - 2 ^ 64

def readWord (bytes : List UInt8) : Option (Nat × List UInt8) :=
  if bytes.length < 8 then none else some (leValue (bytes.take 8), bytes.drop 8)

def readI64 (bytes : List UInt8) : Option (Int × List UInt8) :=
  (readWord bytes).map fun (word, rest) => (i64OfWord word, rest)

def elementBytes : Option (Int × UInt64) → List UInt8
  | none => [0]
  | some (time, value) => 1 :: (i64Bytes time ++ leBytes 8 value.toNat)

def readElement : List UInt8 → Option (Option (Int × UInt64) × List UInt8)
  | [] => none
  | tag :: rest =>
    if tag = 0 then some (none, rest)
    else if tag = 1 then
      match readI64 rest with
      | none => none
      | some (time, rest) =>
        (readWord rest).map fun (bits, rest) => (some (time, UInt64.ofNat bits), rest)
    else none

def readElements : Nat → List UInt8 → Option (List (Option (Int × UInt64)) × List UInt8)
  | 0, bytes => some ([], bytes)
  | n + 1, bytes =>
    match readElement bytes with
    | none => none
    | some (content, rest) =>
      (readElements n rest).map fun (contents, rest) => (content :: contents, rest)

def serialize (vs : VectorSelector UInt64) : List UInt8 :=
  i64Bytes vs.firstBucketMaxTime ++ (i64Bytes vs.lastBucketMaxTime ++
    (i64Bytes vs.endTime ++ (i64Bytes vs.bucketWidth ++ (i64Bytes vs.lookback ++
      (leBytes 8 vs.elements.length ++ vs.elements.flatMap elementBytes)))))

def read (bytes : List UInt8) : Option (VectorSelector UInt64) := do
  let (firstBucketMaxTime, bytes) ← readI64 bytes
  let (lastBucketMaxTime, bytes) ← readI64 bytes
  let (endTime, bytes) ← readI64 bytes
  let (bucketWidth, bytes) ← readI64 bytes
  let (lookback, bytes) ← readI64 bytes
  let (count, bytes) ← readWord bytes
  let (elements, _) ← readElements count bytes
  return { firstBucketMaxTime, lastBucketMaxTime, endTime, bucketWidth, lookback, elements }

end SelectorCodec

/-- `bincode` with its default options, at selectors over bit patterns. -/
def selectorCodec : Bincode (VectorSelector UInt64) where
  serialize := SelectorCodec.serialize
  deserialize bytes :=
    match SelectorCodec.read bytes with
    | none => .error "io error: unexpected end of file"
    | some vs => .ok vs

namespace SelectorCodec

theorem i64OfWord_asUsize {n : Int} (h : IsI64 n) : i64OfWord (asUsize n) = n := by
  obtain ⟨hlo, hhi⟩ := h
  unfold i64OfWord asUsize
  split <;> omega

theorem asUsize_lt (n : Int) : asUsize n < 256 ^ 8 := by
  unfold asUsize
  omega

theorem readWord_append {n : Nat} (h : n < 256 ^ 8) (rest : List UInt8) :
    readWord (leBytes 8 n ++ rest) = some (n, rest) := by
  have hlen : ¬ (leBytes 8 n ++ rest).length < 8 := by simp
  rw [readWord, if_neg hlen, leValue_take_append h, leBytes_drop_append]

theorem readI64_append {n : Int} (h : IsI64 n) (rest : List UInt8) :
    readI64 (i64Bytes n ++ rest) = some (n, rest) := by
  simp [readI64, i64Bytes, readWord_append (asUsize_lt n), i64OfWord_asUsize h]

theorem readElement_append (content : Option (Int × UInt64)) (rest : List UInt8)
    (h : ∀ s, content = some s → IsI64 s.1) :
    readElement (elementBytes content ++ rest) = some (content, rest) := by
  cases content with
  | none => simp [elementBytes, readElement]
  | some s =>
    obtain ⟨time, value⟩ := s
    have hvalue : value.toNat < 256 ^ 8 := value.toNat_lt
    simp [elementBytes, readElement, List.append_assoc, readI64_append (h _ rfl),
      readWord_append hvalue]

theorem readElements_append (contents : List (Option (Int × UInt64))) (rest : List UInt8)
    (h : ∀ s, some s ∈ contents → IsI64 s.1) :
    readElements contents.length (contents.flatMap elementBytes ++ rest) =
      some (contents, rest) := by
  induction contents with
  | nil => rfl
  | cons content more ih =>
    have hcontent := readElement_append content (more.flatMap elementBytes ++ rest)
      (fun s hs => h s (by simp [hs]))
    have hmore := ih (fun s hs => h s (by simp [hs]))
    simp only [List.length_cons, List.flatMap_cons, List.append_assoc, readElements, hcontent,
      hmore, Option.map_some]

/-- The length of an encoded state: a header of six words, and for each bucket one
octet when it is empty or seventeen when it holds a sample. -/
theorem serialize_length (vs : VectorSelector UInt64) :
    (serialize vs).length = 48 + (vs.elements.map fun c => (elementBytes c).length).sum := by
  simp only [serialize, i64Bytes, List.length_append, leBytes_length, List.length_flatMap]
  omega

theorem elementBytes_length (content : Option (Int × UInt64)) :
    (elementBytes content).length = if content.isSome then 17 else 1 := by
  cases content <;> simp [elementBytes, i64Bytes]

end SelectorCodec

theorem selectorCodec_roundTrips : RoundTrips selectorCodec := by
  rintro vs ⟨hfirst, hlast, hend, hwidth, hlookback, helements⟩ hcount
  have hread : SelectorCodec.read (SelectorCodec.serialize vs) = some vs := by
    have htail := SelectorCodec.readElements_append vs.elements [] helements
    rw [List.append_nil] at htail
    simp [SelectorCodec.read, SelectorCodec.serialize, SelectorCodec.readI64_append hfirst,
      SelectorCodec.readI64_append hlast, SelectorCodec.readI64_append hend,
      SelectorCodec.readI64_append hwidth, SelectorCodec.readI64_append hlookback,
      SelectorCodec.readWord_append hcount, htail]
  simp [selectorCodec, hread]

end Promscale.Aggregates
